import Dataflow.Proofs.Casting
import Dataflow.Proofs.Refusal
import Dataflow.Proofs.Reshaping
import Dataflow.Proofs.Views

/-!
# Drawing random arrays

What the random kernels do over any library of distributions that keeps to its documentation,
whatever numbers it yields. The kernels check the parameters of a distribution before they build a
sampler; what the checks leave out is the width of a range, and there the library stops the program.
-/

namespace Dataflow

open Except

/-! ## Libraries -/

/-- What is documented of a library. A range has to be finite, and so has its width. -/
structure Library.Documented {γ : Type} (lib : Library γ) : Prop where
  uniform : ∀ {low high : Float}, (∃ draw, lib.uniform low high = some draw) ↔
    low < high ∧ low.isFinite = true ∧ high.isFinite = true ∧ (high - low).isFinite = true
  normal : ∀ {mean deviation : Float}, (∃ draw, lib.normal mean deviation = .ok draw) ↔
    deviation.isFinite = true

theorem Library.documented_standard : standard.Documented where
  uniform {low high} := by
    dsimp only [standard]
    split
    · rename_i h
      simp only [Bool.and_eq_true, decide_eq_true_eq] at h
      obtain ⟨⟨⟨hlow, hhigh⟩, hlt⟩, hwidth⟩ := h
      exact ⟨fun _ => ⟨hlt, hlow, hhigh, hwidth⟩, fun _ => ⟨_, rfl⟩⟩
    · rename_i h
      simp only [Bool.and_eq_true, decide_eq_true_eq] at h
      exact ⟨nofun, fun ⟨hlt, hlow, hhigh, hwidth⟩ => absurd ⟨⟨⟨hlow, hhigh⟩, hlt⟩, hwidth⟩ h⟩
  normal {mean deviation} := by
    dsimp only [standard]
    split
    · rename_i h
      exact ⟨fun _ => h, fun _ => ⟨_, rfl⟩⟩
    · rename_i h
      exact ⟨nofun, fun hfinite => absurd hfinite h⟩

namespace Sampler

/-- What the kernels check of the parameters. -/
def Guarded : Sampler → Prop
  | .uniform low high => low < high ∧ low.isFinite = true ∧ high.isFinite = true
  | .normal _ deviation => deviation.isFinite = true

/-- The width of the range is beyond the finite numbers. -/
def isOverwide : Sampler → Bool
  | .uniform low high => !(high - low).isFinite
  | .normal .. => false

theorem guarded_of_read {args : Arguments} {distribution : Distribution} {sampler : Sampler}
    (h : read args distribution = .ok sampler) : sampler.Guarded := by
  cases distribution with
  | normal =>
    obtain ⟨mean, -, h⟩ := bind_eq_ok.mp h
    obtain ⟨deviation, -, h⟩ := bind_eq_ok.mp h
    split at h
    · rename_i hcheck
      cases h
      exact (Bool.and_eq_true_iff.mp hcheck).1
    · cases h
  | uniform =>
    obtain ⟨low, -, h⟩ := bind_eq_ok.mp h
    obtain ⟨high, -, h⟩ := bind_eq_ok.mp h
    split at h
    · rename_i hcheck
      cases h
      simp only [Bool.and_eq_true, decide_eq_true_eq] at hcheck
      exact ⟨hcheck.2, hcheck.1.1, hcheck.1.2⟩
    · cases h

end Sampler

namespace Library.Documented

variable {γ : Type} {lib : Library γ} {sampler : Sampler}

/-- A sampler that was checked can be built unless its range is too wide. -/
theorem exists_build (hlib : lib.Documented) (hsampler : sampler.Guarded)
    (hwidth : sampler.isOverwide = false) (args : Arguments) :
    ∃ draw, lib.build args sampler = .ok draw := by
  cases sampler with
  | uniform low high =>
    obtain ⟨hlt, hlow, hhigh⟩ := hsampler
    obtain ⟨draw, hdraw⟩ :=
      hlib.uniform.mpr ⟨hlt, hlow, hhigh, by simpa [Sampler.isOverwide] using hwidth⟩
    exact ⟨draw, by rw [build, hdraw]⟩
  | normal mean deviation =>
    obtain ⟨draw, hdraw⟩ : ∃ draw, lib.normal mean deviation = .ok draw :=
      hlib.normal.mpr hsampler
    exact ⟨draw, by rw [build, hdraw]⟩

theorem build_of_isOverwide (hlib : lib.Documented) (hwidth : sampler.isOverwide = true)
    (args : Arguments) :
    lib.build args sampler = .error (args.invalid "maxval" .overwideRange) := by
  cases sampler with
  | uniform low high =>
    cases hdraw : lib.uniform low high with
    | none => rw [build, hdraw]
    | some draw =>
      obtain ⟨-, -, -, hfinite⟩ := hlib.uniform.mp ⟨draw, hdraw⟩
      rw [Sampler.isOverwide, hfinite] at hwidth
      cases hwidth
  | normal mean deviation => cases hwidth

end Library.Documented

/-! ## Plans -/

namespace Arguments

variable {args : Arguments} {distribution : Distribution}

/-- The extents that the options ask for. -/
def Requests (args : Arguments) (ns : List Nat) : Prop :=
  match args.value? "shape" with
  | some v => v.asExtents = .ok ns
  | none => ns = []

/-- The failure is reported to the caller. -/
abbrev Reports {α : Type} (x : Except Failure α) : Prop :=
  FailsWith (fun failure => failure.stops = false) x

theorem reports_read {α : Type} {key : String} (x : Except Fault α) :
    Reports (args.read key x) := by
  cases x with
  | ok a => exact .ok a
  | error f => exact .fail rfl

theorem reports_float {key : String} {default : Float} : Reports (args.float key default) := by
  unfold float
  split
  · exact reports_read _
  · exact .ok _

theorem reports_sampler : Reports (Sampler.read args distribution) := by
  cases distribution with
  | normal =>
    exact reports_float.bind fun _ => reports_float.bind fun _ => .ite (.ok _) (.fail rfl)
  | uniform =>
    exact reports_float.bind fun _ => reports_float.bind fun _ => .ite (.ok _) (.fail rfl)

theorem reports_plan : Reports (Sampling.plan args distribution) := by
  have hshape : Reports (Sampling.shape args) := by
    unfold Sampling.shape
    split
    · exact reports_read _
    · exact .ok _
  have hseed : Reports (args.int? "seed") := by
    unfold int?
    split
    · exact (reports_read _).map _
    · exact .ok _
  refine hshape.bind fun dims => .ite (.abort rfl) ?_
  dsimp only
  split
  · exact .fail rfl
  · exact hseed.bind fun _ => reports_sampler.bind fun _ => .ok _

end Arguments

namespace Sampling

variable {args : Arguments} {distribution : Distribution} {ns : List Nat}

theorem requests_of_shape {dims : List Int} (h : shape args = .ok dims)
    (hsigns : dims.any (· < 0) = false) : ∃ ns, args.Requests ns ∧ dims = ns.map Int.ofNat := by
  unfold shape at h
  unfold Arguments.Requests
  cases hvalue : args.value? "shape" with
  | none =>
    rw [hvalue] at h
    cases h
    exact ⟨[], rfl, rfl⟩
  | some v =>
    rw [hvalue] at h
    dsimp only at h
    cases hds : v.asInts with
    | error f =>
      rw [Arguments.ints, hds] at h
      cases h
    | ok ds =>
      rw [Arguments.ints, hds] at h
      cases h
      -- The extents are read as signed words, and none of them is negative.
      have hnonneg : ∀ d ∈ ds, 0 ≤ d.toInt := by simpa using hsigns
      refine ⟨ds.map fun d => d.toInt.toNat, ?_, ?_⟩
      · refine Value.asExtents_eq_ok.mpr ⟨ds, hds, List.forall₂_map_right_iff.mpr ?_⟩
        exact List.forall₂_same.mpr fun d hd => (Int.toNat_of_nonneg (hnonneg d hd)).symm
      · rw [List.map_map]
        exact List.map_congr_left fun d hd => (Int.toNat_of_nonneg (hnonneg d hd)).symm

/-- What is planned: as many numbers as the extents call for, from a sampler that was checked. -/
theorem plan_eq_ok {dims : List Int} {n : Nat} {seed : Option UInt64} {sampler : Sampler}
    (h : plan args distribution = .ok (dims, n, seed, sampler)) :
    ∃ ns, args.Requests ns ∧ dims = ns.map Int.ofNat ∧ n = volume ns ∧ n < UInt64.size ∧
      sampler.Guarded := by
  obtain ⟨listed, hshape, h⟩ := bind_eq_ok.mp h
  dsimp only at h
  split at h
  · cases h
  · rename_i hsigns
    obtain ⟨ns, hns, hlisted⟩ := requests_of_shape hshape (Bool.eq_false_of_not_eq_true hsigns)
    split at h
    · cases h
    · rename_i helements
      obtain ⟨seed', -, h⟩ := bind_eq_ok.mp h
      obtain ⟨sampler', hsampler, h⟩ := bind_eq_ok.mp h
      cases h
      rw [hlisted] at helements
      obtain ⟨hn, hsize⟩ := elements?_eq_some helements
      exact ⟨ns, hns, hlisted, hn, hsize, Sampler.guarded_of_read hsampler⟩

/-! ## Arrays -/

/-- `v` is an array of the extents `ns` that holds `samples` as elements of the type of the node. -/
structure Delivers (args : Arguments) (ns : List Nat) (samples : List Float) (v : Value) :
    Prop where
  length : samples.length = volume ns
  /-- The samples are nested by parts that lie within them. -/
  nested : ∃ shaped, Value.nestParts ns (samples.map (element args.dtype)) = .ok shaped ∧
    shaped.cast args.dtype = .ok v
  /-- No product of extents takes more than 64 bits. -/
  fits : 0 ∉ ns → ∀ rest, rest <:+ ns → volume rest < UInt64.size
  typed : v.cast args.dtype = .ok v
  dims : 0 ∉ ns.dropLast → v.dims = ns
  scalar : ns = [] → ∃ s, v = .scalar s

theorem exists_cast_element (dtype : DType) (x : Float) :
    ∃ t, (element dtype x).cast dtype = .ok t := by
  cases dtype <;> exact ⟨_, rfl⟩

theorem volume_le_of_suffix {rest : List Nat} (hzero : 0 ∉ ns) (h : rest <:+ ns) :
    volume rest ≤ volume ns := by
  obtain ⟨before, rfl⟩ := h
  rw [Value.volume_eq_prod, Value.volume_eq_prod, List.prod_append]
  refine Nat.le_mul_of_pos_left _ (List.prod_pos ?_)
  exact fun n hn => Nat.pos_of_ne_zero fun h0 => hzero (List.mem_append_left _ (h0 ▸ hn))

/-- With as many samples as the extents call for, the array can be built. -/
theorem delivers_arrange (args : Arguments) {samples : List Float}
    (hlength : samples.length = volume ns) (hsize : volume ns < UInt64.size) :
    ∃ v, arrange args (ns.map Int.ofNat) samples = .ok v ∧ Delivers args ns samples v := by
  have hcount : (samples.map (element args.dtype)).length = volume ns := by
    rw [List.length_map, hlength]
  let shaped := Value.nest ns (samples.map (element args.dtype))
  obtain ⟨v, hv⟩ : ∃ v, shaped.cast args.dtype = .ok v := by
    refine Value.exists_cast_iff.mpr fun s hs => ?_
    rw [Value.scalars_nest hcount] at hs
    obtain ⟨x, -, rfl⟩ := List.mem_map.mp hs
    exact exists_cast_element args.dtype x
  -- Without extents the only sample is cast by itself; otherwise the samples are reshaped.
  have harrange : arrange args (ns.map Int.ofNat) samples = .ok v := by
    unfold arrange
    cases ns with
    | nil =>
      obtain ⟨x, rfl⟩ := List.length_eq_one_iff.mp hlength
      exact congrArg Failure.ofFault hv
    | cons n ns =>
      have hflat : (Value.array (samples.map fun x => .scalar (element args.dtype x))).scalars =
          samples.map (element args.dtype) := by
        rw [Value.scalars_array, List.flatMap_map]
        exact List.flatMap_pure_eq_map (element args.dtype) samples
      have hshaped : (Value.array (samples.map fun x => .scalar (element args.dtype x))).reshape
          ((n :: ns).map Int.ofNat) = .ok shaped := by
        rw [Value.reshape_eq_ok (by rwa [Value.given_map_ofNat]), hflat,
          Value.inferred_map_ofNat, hcount]
        exact ⟨Value.admits_volume _, rfl⟩
      rw [List.map_cons] at hshaped ⊢
      dsimp only
      rw [hshaped]
      exact congrArg Failure.ofFault hv
  refine ⟨v, harrange, ?_⟩
  exact {
    length := hlength
    nested := ⟨shaped, Value.nestParts_eq_nest hcount, hv⟩
    fits := fun hzero rest hrest => (volume_le_of_suffix hzero hrest).trans_lt hsize
    typed := Value.cast_cast hv
    dims := fun hzero => dims_arrange hzero hsize harrange
    scalar := fun hnil => by
      subst hnil
      obtain ⟨x, rfl⟩ := List.length_eq_one_iff.mp hlength
      obtain ⟨t, -, rfl⟩ := Value.cast_scalar_eq_ok.mp hv
      exact ⟨t, rfl⟩ }

/-! ## Samples -/

/-- All options are in order, but the range is wider than any finite number. -/
def Overwide (args : Arguments) (distribution : Distribution) : Prop :=
  ∃ dims n seed low high, plan args distribution = .ok (dims, n, seed, .uniform low high) ∧
    (high - low).isFinite = false

theorem overwide_iff {dims : List Int} {n : Nat} {seed : Option UInt64} {sampler : Sampler}
    (h : plan args distribution = .ok (dims, n, seed, sampler)) :
    Overwide args distribution ↔ sampler.isOverwide = true := by
  unfold Overwide
  rw [h]
  cases sampler with
  | uniform low high => simp [Sampler.isOverwide]
  | normal mean deviation => simp [Sampler.isOverwide]

/-- Without a sampler no number is drawn. -/
theorem sample_of_prepare_error {γ : Type} {lib : Library γ} {failure : Failure}
    (h : prepare lib args distribution = .error failure) (shared : γ) :
    sample lib args distribution shared = (.error failure, shared) := by
  rw [sample, h]

/-- With a sampler the array is delivered, whatever the numbers are. -/
theorem delivers_of_prepare {γ : Type} {lib : Library γ} {seed : Option UInt64}
    {draw : γ → Float × γ} (hsize : volume ns < UInt64.size)
    (h : prepare lib args distribution = .ok (ns.map Int.ofNat, volume ns, seed, draw))
    (shared : γ) :
    ∃ samples v rest, sample lib args distribution shared = (.ok v, rest) ∧
      Delivers args ns samples v := by
  cases seed with
  | some seed =>
    obtain ⟨v, hv, hdelivers⟩ := delivers_arrange args
      (Arguments.length_draws draw (volume ns) (lib.ofSeed seed)) hsize
    exact ⟨_, v, shared, by rw [sample, h, ← hv], hdelivers⟩
  | none =>
    obtain ⟨v, hv, hdelivers⟩ := delivers_arrange args
      (Arguments.length_draws draw (volume ns) shared) hsize
    exact ⟨_, v, _, by rw [sample, h, ← hv], hdelivers⟩

/-- A random kernel either refuses its options, the same way for all libraries and generators and
before a number is drawn, or delivers the requested array from any stream of numbers. The program
stops at a refusal exactly if all options are in order but the range is too wide. Memory is taken to
be unbounded: an array that can be counted in 64 bits is delivered, however much room it takes. -/
theorem refuses_or_delivers (args : Arguments) (distribution : Distribution) :
    (∃ failure : Failure, (failure.stops = true ↔ Overwide args distribution) ∧
      ∀ {γ : Type} {lib : Library γ}, lib.Documented → ∀ shared,
        sample lib args distribution shared = (.error failure, shared)) ∨
    ∃ ns, args.Requests ns ∧ ∀ {γ : Type} {lib : Library γ}, lib.Documented → ∀ shared,
      ∃ samples v rest, sample lib args distribution shared = (.ok v, rest) ∧
        Delivers args ns samples v := by
  cases hplan : plan args distribution with
  | error failure =>
    refine .inl ⟨failure, ?_, fun {_ lib} _ => sample_of_prepare_error ?_⟩
    · have hreports := Arguments.reports_plan.error failure hplan
      simp [hreports, Overwide, hplan]
    · rw [prepare, hplan]
      rfl
  | ok planned =>
    obtain ⟨dims, n, seed, sampler⟩ := planned
    obtain ⟨ns, hrequests, rfl, rfl, hsize, hguarded⟩ := plan_eq_ok hplan
    cases hwidth : sampler.isOverwide with
    | true =>
      -- The checks of the kernel leave this range to the library, which stops the program.
      refine .inl ⟨args.invalid "maxval" .overwideRange, ?_,
        fun {_ lib} hlib => sample_of_prepare_error ?_⟩
      · exact iff_of_true rfl ((overwide_iff hplan).mpr hwidth)
      · rw [prepare, hplan]
        change (lib.build args sampler >>= _) = _
        rw [hlib.build_of_isOverwide hwidth args]
        rfl
    | false =>
      refine .inr ⟨ns, hrequests, fun {_ lib} hlib => ?_⟩
      obtain ⟨draw, hdraw⟩ := hlib.exists_build hguarded hwidth args
      have hprepare : prepare lib args distribution =
          .ok (ns.map Int.ofNat, volume ns, seed, draw) := by
        rw [prepare, hplan]
        change (lib.build args sampler >>= _) = _
        rw [hdraw]
        rfl
      exact delivers_of_prepare hsize hprepare

/-- Two rows of three whole numbers from the generator of this project. -/
theorem refuses_or_delivers_rows :
    let args : Arguments := ⟨.random .uniform, .int32, [], [
      ("shape", .value (.array [.scalar (.int 2), .scalar (.int 3)])),
      ("maxval", .value (.scalar (.int 10)))]⟩
    Library.standard.Documented ∧ ¬ Overwide args .uniform ∧
      ∃ v rest, sample .standard args .uniform (.ofSeed 7) = (.ok v, rest) ∧ v.dims = [2, 3] ∧
        v.cast .int32 = .ok v := by
  intro args
  have hplan : plan args .uniform =
      .ok ([2, 3], 6, none, .uniform 0.0 (Word.toFloat 10)) := rfl
  have hnarrow : ¬ Overwide args .uniform := by
    rw [overwide_iff hplan]
    decide +kernel
  refine ⟨Library.documented_standard, hnarrow, ?_⟩
  rcases refuses_or_delivers args .uniform with ⟨failure, -, hall⟩ | ⟨ns, hrequests, hall⟩
  · have hrun := congrArg (·.1.isOk) (hall Library.documented_standard (.ofSeed 7))
    cases hrun
  · obtain ⟨samples, v, rest, hv, hdelivers⟩ := hall Library.documented_standard (.ofSeed 7)
    have hread : ([2, 3] : List Nat) = ns := Except.ok.inj hrequests
    subst hread
    exact ⟨v, rest, hv, hdelivers.dims (by decide), hdelivers.typed⟩

/-- The bounds are finite and in order, but the program stops. -/
theorem refuses_or_delivers_fails :
    ¬ ∀ (args : Arguments) (distribution : Distribution) {γ : Type} (lib : Library γ),
      lib.Documented → ∀ shared,
        (∃ failure, sample lib args distribution shared = (.error failure, shared) ∧
          failure.stops = false) ∨
        ∃ ns v rest, args.Requests ns ∧ sample lib args distribution shared = (.ok v, rest) ∧
          (0 ∉ ns → v.dims = ns) ∧ v.cast args.dtype = .ok v := by
  intro h
  let args : Arguments := ⟨.random .uniform, .boolean, [], [
    ("shape", .value (.array [.scalar (.int 1)])),
    ("minval", .value (.scalar (.float (.ofBits 0xFFEE42D130773B76)))),
    ("maxval", .value (.scalar (.float (.ofBits 0x7FEE42D130773B76))))]⟩
  have hrun : sample .standard args .uniform (.ofSeed 7) =
      (.error (args.invalid "maxval" .overwideRange), .ofSeed 7) := rfl
  rcases h args .uniform .standard Library.documented_standard (.ofSeed 7) with
    ⟨failure, hfailure, hreports⟩ | ⟨ns, v, rest, -, hv, -⟩
  · cases hrun.symm.trans hfailure
    cases hreports
  · cases hrun.symm.trans hv

end Sampling

end Dataflow
