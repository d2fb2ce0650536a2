import Dataflow.Proofs.Boxes
import Dataflow.Proofs.Products
import Mathlib.Algebra.BigOperators.Ring.Finset

/-!
# Reshaping values

A reshape keeps the scalars of a value in their order. The blocks into which it cuts them lie side
by side and use all of them up, so that reshaping again to the extents of a rectangular value gives
it back. Which targets are possible is a matter of the number of scalars.
-/

namespace Dataflow

namespace Value

variable {flat : List Scalar} {ns : List Nat}

/-! ## Blocks -/

theorem getElem_blocks {size n : Nat} (flat : List Scalar) {i : Nat}
    (hi : i < (blocks size n flat).length) :
    (blocks size n flat)[i] = (flat.drop (i * size)).take size := by
  induction n generalizing flat i with
  | zero => cases hi
  | succ n ih =>
    cases i with
    | zero => simp [blocks]
    | succ i =>
      simp only [blocks, List.getElem_cons_succ]
      rw [ih, List.drop_drop]
      rw [Nat.succ_mul, Nat.add_comm]

theorem flatten_blocks {size n : Nat} (h : flat.length = n * size) :
    (blocks size n flat).flatten = flat := by
  induction n generalizing flat with
  | zero =>
    rw [Nat.zero_mul] at h
    rw [List.length_eq_zero_iff.mp h]
    rfl
  | succ n ih =>
    have hrest : (flat.drop size).length = n * size := by
      rw [List.length_drop, h, Nat.succ_mul, Nat.add_sub_cancel]
    rw [blocks, List.flatten_cons, ih hrest, List.take_append_drop]

/-- With enough scalars for all blocks, each of them is full. -/
theorem length_of_mem_blocks {size n : Nat} (h : flat.length = n * size) {block : List Scalar}
    (hblock : block ∈ blocks size n flat) : block.length = size := by
  obtain ⟨i, hi, rfl⟩ := List.getElem_of_mem hblock
  have hle : (i + 1) * size ≤ n * size :=
    Nat.mul_le_mul_right size (length_blocks size n flat ▸ hi)
  rw [Nat.succ_mul] at hle
  rw [getElem_blocks, List.length_take, List.length_drop, h]
  omega

/-! ## Nesting -/

/-- Nested scalars are rectangular. The extents are the ones that were asked for, as far as they
show. -/
theorem rect_nest (h : flat.length = volume ns) :
    (nest ns flat).Rect ∧ (nest ns flat).dims = visible ns := by
  induction ns generalizing flat with
  | nil =>
    obtain ⟨s, rfl⟩ := List.length_eq_one_iff.mp h
    exact ⟨.scalar s, rfl⟩
  | cons n ns ih =>
    have hitems : ∀ u ∈ (blocks (volume ns) n flat).map (nest ns),
        u.Rect ∧ u.dims = visible ns := by
      intro u hu
      obtain ⟨block, hblock, rfl⟩ := List.mem_map.mp hu
      exact ih (length_of_mem_blocks h hblock)
    cases n with
    | zero => exact ⟨.array (by simp [blocks]) (by simp [blocks]), rfl⟩
    | succ n =>
      obtain ⟨hrect, hdims⟩ := rect_array hitems fun hempty => by simp [blocks] at hempty
      refine ⟨hrect, hdims.trans ?_⟩
      rw [List.length_map, length_blocks]
      rfl

theorem scalars_nest (h : flat.length = volume ns) : (nest ns flat).scalars = flat := by
  induction ns generalizing flat with
  | nil =>
    obtain ⟨s, rfl⟩ := List.length_eq_one_iff.mp h
    rfl
  | cons n ns ih =>
    have hitems : (blocks (volume ns) n flat).map (fun block => (nest ns block).scalars) =
        blocks (volume ns) n flat := by
      refine (List.map_congr_left fun block hblock => ?_).trans (List.map_id _)
      exact ih (length_of_mem_blocks h hblock)
    rw [nest, scalars_array, List.flatMap_map, List.flatMap, hitems, flatten_blocks h]

/-- The part of a list from position `first` up to position `last`, or the fault that the list does
not reach that far. -/
def part (flat : List Scalar) (first last : Nat) : Except Fault (List Scalar) :=
  if first ≤ last ∧ last ≤ flat.length then .ok ((flat.take last).drop first)
  else .error (.indexOutOfBounds last flat.length)

/-- Nests scalars in row-major order by parts of the list, each of which has to lie within it. -/
def nestParts : List Nat → List Scalar → Except Fault Value
  | [], s :: _ => .ok (.scalar s)
  | [], [] => .ok (.array [])
  | n :: ns, flat => do
    return .array (← (List.range n).mapM fun i => do
      nestParts ns (← part flat (i * volume ns) ((i + 1) * volume ns)))

/-- With as many scalars as the extents call for, no part reaches past the end of the list. -/
theorem nestParts_eq_nest (h : flat.length = volume ns) :
    nestParts ns flat = .ok (nest ns flat) := by
  induction ns generalizing flat with
  | nil =>
    obtain ⟨s, rfl⟩ := List.length_eq_one_iff.mp h
    rfl
  | cons n ns ih =>
    -- A block is the part that starts where the blocks before it end.
    have hblocks : (blocks (volume ns) n flat).map (nest ns) = (List.range n).map fun i =>
        nest ns ((flat.drop (i * volume ns)).take (volume ns)) := by
      refine List.ext_getElem (by simp [length_blocks]) fun i hi hi' => ?_
      rw [List.getElem_map, List.getElem_map, List.getElem_range, getElem_blocks]
    have hpart : ∀ i ∈ List.range n, (do
        nestParts ns (← part flat (i * volume ns) ((i + 1) * volume ns))) =
          .ok (nest ns ((flat.drop (i * volume ns)).take (volume ns))) := by
      intro i hi
      have hle : (i + 1) * volume ns ≤ flat.length := by
        rw [h]
        exact Nat.mul_le_mul_right _ (List.mem_range.mp hi)
      have hwithin : part flat (i * volume ns) ((i + 1) * volume ns) =
          .ok ((flat.drop (i * volume ns)).take (volume ns)) := by
        rw [Nat.succ_mul] at hle ⊢
        rw [part, if_pos ⟨Nat.le_add_right _ _, hle⟩, List.drop_take, Nat.add_sub_cancel_left]
      rw [hwithin]
      refine ih ?_
      rw [Nat.succ_mul] at hle
      rw [List.length_take, List.length_drop]
      omega
    have hitems := (Except.mapM_congr hpart).trans List.mapM_pure
    rw [nestParts, nest, hblocks, hitems]
    rfl

/-! ## Targets -/

theorem volume_eq_prod (ns : List Nat) : volume ns = ns.prod := by
  induction ns with
  | nil => rfl
  | cons n ns ih => rw [volume, List.prod_cons, ih]

/-- The product of the extents that a target gives, beside one that is left open. -/
def given (target : List Int) : Int := (target.erase (-1)).prod

/-- The extents that a target stands for when there are `total` scalars. -/
def inferred (target : List Int) (total : Nat) : List Nat :=
  target.map fun d => if d = -1 then (total / given target).toNat else d.toNat

/-- A target that `total` scalars can be reshaped to. -/
structure Admits (target : List Int) (total : Nat) : Prop where
  extents : ∀ d ∈ target, -1 ≤ d
  single : target.count (-1) ≤ 1
  counts : -1 ∉ target ∧ target.prod = total ∨
    -1 ∈ target ∧ given target ≠ 0 ∧ given target ∣ total

variable {seen t : Target} {target : List Int} {total : Nat}

/-- What is read of a target, if it leaves at most one extent open and has no negative ones. -/
theorem read_eq_ok (hseen : seen.known < UInt64.size) : Target.read seen target = .ok t ↔
    (∀ d ∈ target, -1 ≤ d) ∧ target.count (-1) + seen.isOpen.toNat ≤ 1 ∧
      t = ⟨seen.isOpen || decide (-1 ∈ target),
        counted (seen.known * volume ((target.erase (-1)).map Int.toNat))⟩ := by
  induction target generalizing seen with
  | nil =>
    have hopen := seen.isOpen.toNat_le
    simp [Target.read, volume, hopen, eq_comm, counted_of_lt hseen]
  | cons d ds ih =>
    rw [Target.read, List.forall_mem_cons]
    by_cases hd : d = -1
    · subst hd
      rw [if_pos rfl, List.count_cons_self, List.erase_cons_head]
      cases hopen : seen.isOpen with
      | true =>
        rw [if_pos rfl]
        simp
      | false =>
        -- No other extent is left open, so none of the others is erased.
        have hopened : (Target.mk true seen.known).known < UInt64.size := hseen
        rw [if_neg Bool.false_ne_true, ih hopened]
        have herase : ds.count (-1) = 0 → ds.erase (-1) = ds := fun hcount =>
          List.erase_of_not_mem (List.count_eq_zero.mp hcount)
        simp +contextual [herase]
    · rw [if_neg hd, List.count_cons_of_ne hd, List.erase_cons_tail (by simpa using hd)]
      by_cases hneg : d < 0
      · rw [if_pos hneg]
        have : ¬ -1 ≤ d := by omega
        simp [this]
      · have hle : -1 ≤ d := by omega
        rw [if_neg hneg, ih (counted_lt _)]
        simp [hle, volume, counted_counted_mul, Nat.mul_assoc, Ne.symm hd]

/-- The given extents come to as much as the positive extents at most, and to nothing if there are
others. -/
theorem volume_given_le (target : List Int) :
    (volume ((target.erase (-1)).map Int.toNat) : Int) ≤ (target.filter (0 < ·)).prod := by
  have hle : ∀ ds : List Int, (volume (ds.map Int.toNat) : Int) ≤ (ds.filter (0 < ·)).prod := by
    intro ds
    induction ds with
    | nil => exact Int.le_refl 1
    | cons d ds ih =>
      rw [List.map_cons, volume, Int.natCast_mul]
      by_cases hd : 0 < d
      · rw [List.filter_cons_of_pos (by simpa using hd), List.prod_cons,
          Int.toNat_of_nonneg (Int.le_of_lt hd)]
        exact Int.mul_le_mul_of_nonneg_left ih (Int.le_of_lt hd)
      · rw [List.filter_cons_of_neg (by simpa using hd), Int.toNat_of_nonpos (Int.not_lt.mp hd),
          Int.natCast_zero, Int.zero_mul]
        exact Int.le_trans (Int.natCast_nonneg _) ih
  refine (hle _).trans_eq ?_
  by_cases hopen : -1 ∈ target
  · have hperm := (List.perm_cons_erase hopen).filter (0 < ·)
    rw [List.filter_cons_of_neg (by decide)] at hperm
    exact hperm.prod_eq.symm
  · rw [List.erase_of_not_mem hopen]

theorem nonneg_of_mem_erase (hextents : ∀ d ∈ target, -1 ≤ d) (hsingle : target.count (-1) ≤ 1)
    {d : Int} (hd : d ∈ target.erase (-1)) : 0 ≤ d := by
  have hle := hextents d (List.mem_of_mem_erase hd)
  have hne : d ≠ -1 := by
    rintro rfl
    have hcount := List.count_pos_iff.mpr hd
    rw [List.count_erase_self] at hcount
    omega
  omega

/-- What the given extents of a target come to. -/
theorem volume_given (hextents : ∀ d ∈ target, -1 ≤ d) (hsingle : target.count (-1) ≤ 1) :
    (volume ((target.erase (-1)).map Int.toNat) : Int) = given target := by
  have hcast : ((target.erase (-1)).map Int.toNat).map Nat.cast = target.erase (-1) := by
    rw [List.map_map]
    refine (List.map_congr_left fun d hd => ?_).trans (List.map_id _)
    exact Int.toNat_of_nonneg (nonneg_of_mem_erase hextents hsingle hd)
  rw [volume_eq_prod, Nat.cast_list_prod, hcast, given]

theorem inferred_of_notMem (h : -1 ∉ target) : inferred target total = target.map Int.toNat := by
  refine List.map_congr_left fun d hd => ?_
  rw [if_neg]
  rintro rfl
  exact h hd

theorem extents?_eq_some {ns : List Nat} (hextents : ∀ d ∈ target, -1 ≤ d)
    (hsingle : target.count (-1) ≤ 1) :
    Target.extents? ⟨decide (-1 ∈ target), volume ((target.erase (-1)).map Int.toNat)⟩ total
      target = some ns ↔ Admits target total ∧ ns = inferred target total := by
  have hgiven := volume_given hextents hsingle
  have hadmits : Admits target total ↔ (-1 ∉ target ∧ target.prod = total ∨
      -1 ∈ target ∧ given target ≠ 0 ∧ given target ∣ total) :=
    ⟨Admits.counts, fun hcounts => ⟨hextents, hsingle, hcounts⟩⟩
  rw [hadmits]
  unfold Target.extents?
  by_cases hopen : -1 ∈ target
  · rw [inferred, ← hgiven]
    generalize volume ((target.erase (-1)).map Int.toNat) = known
    have hquotient : ((total : Int) / known).toNat = total / known := by
      rw [← Int.natCast_div, Int.toNat_natCast]
    have hcounts : (known : Int) ≠ 0 ∧ (known : Int) ∣ total ↔
        ¬ (known = 0 ∨ total % known ≠ 0) := by
      rw [not_or, not_not, ← Nat.dvd_iff_mod_eq_zero, Int.natCast_dvd_natCast, Int.natCast_ne_zero]
    rw [hquotient, hcounts]
    by_cases hknown : known = 0 ∨ total % known ≠ 0
    · simp [hopen, hknown]
    · simp [hopen, hknown, eq_comm]
  · rw [inferred_of_notMem hopen]
    rw [List.erase_of_not_mem hopen] at hgiven ⊢
    have hprod : given target = target.prod := by rw [given, List.erase_of_not_mem hopen]
    rw [hprod] at hgiven
    simp [hopen, ← hgiven, eq_comm]

theorem Admits.volume_inferred (h : Admits target total) :
    volume (inferred target total) = total := by
  have hgiven := volume_given h.extents h.single
  rcases h.counts with ⟨hclosed, hprod⟩ | ⟨hopen, hne, hdvd⟩
  · rw [inferred_of_notMem hclosed]
    rw [given, List.erase_of_not_mem hclosed, hprod] at hgiven
    exact Int.ofNat.inj hgiven
  · have hrest : (target.erase (-1)).map (fun d =>
        if d = -1 then (total / given target).toNat else d.toNat) =
          (target.erase (-1)).map Int.toNat := by
      refine List.map_congr_left fun d hd => ?_
      have := nonneg_of_mem_erase h.extents h.single hd
      rw [if_neg]
      omega
    rw [← hgiven] at hdvd
    rw [volume_eq_prod, inferred, ← List.prod_map_erase _ hopen, hrest, if_pos rfl,
      ← volume_eq_prod, ← hgiven, ← Int.natCast_div, Int.toNat_natCast]
    exact Nat.div_mul_cancel (Int.natCast_dvd_natCast.mp hdvd)

/-- A value is reshaped to just the targets that its number of scalars admits. -/
theorem reshape_eq_ok {v w : Value}
    (hfits : volume ((target.erase (-1)).map Int.toNat) < UInt64.size) : reshape v target = .ok w ↔
    Admits target v.scalars.length ∧ nest (inferred target v.scalars.length) v.scalars = w := by
  have hone : (1 : Nat) < UInt64.size := by decide
  constructor
  · intro h
    obtain ⟨t, ht, h⟩ := Except.bind_eq_ok.mp h
    obtain ⟨hextents, hsingle, rfl⟩ := (read_eq_ok hone).mp ht
    rw [Bool.false_or, Nat.one_mul, counted_of_lt hfits] at h
    split at h
    · next ns hns =>
      obtain ⟨hadmits, rfl⟩ := (extents?_eq_some hextents hsingle).mp hns
      exact ⟨hadmits, Except.ok.inj h⟩
    · cases h
  · rintro ⟨h, rfl⟩
    have hread : Target.read ⟨false, 1⟩ target = .ok _ :=
      (read_eq_ok hone).mpr ⟨h.extents, h.single, rfl⟩
    rw [Bool.false_or, Nat.one_mul, counted_of_lt hfits] at hread
    unfold reshape
    rw [hread]
    dsimp only [bind, Except.bind]
    rw [(extents?_eq_some h.extents h.single).mpr ⟨h, rfl⟩]
    rfl

/-! ## There and back -/

theorem negOne_notMem_map_ofNat (ns : List Nat) : -1 ∉ ns.map Int.ofNat := by simp

theorem admits_volume (ns : List Nat) : Admits (ns.map Int.ofNat) (volume ns) where
  extents d hd := by
    obtain ⟨n, -, rfl⟩ := List.mem_map.mp hd
    exact Int.le_trans (by decide) (Int.natCast_nonneg n)
  single := by
    rw [List.count_eq_zero.mpr (negOne_notMem_map_ofNat ns)]
    exact Nat.zero_le 1
  counts := by
    refine .inl ⟨negOne_notMem_map_ofNat ns, ?_⟩
    rw [volume_eq_prod, Nat.cast_list_prod]
    rfl

theorem given_map_ofNat (ns : List Nat) : ((ns.map Int.ofNat).erase (-1)).map Int.toNat = ns := by
  rw [List.erase_of_not_mem (negOne_notMem_map_ofNat ns), List.map_map]
  exact List.map_id _

theorem inferred_map_ofNat (ns : List Nat) (total : Nat) :
    inferred (ns.map Int.ofNat) total = ns := by
  rw [inferred_of_notMem (negOne_notMem_map_ofNat ns), List.map_map]
  exact List.map_id _

/-- The extents of a rectangular value bring its scalars back into its nesting. -/
theorem Rect.reshape_dims {v w : Value} (h : v.Rect) (hsize : v.scalars.length < UInt64.size)
    (hw : w.scalars = v.scalars) : reshape w (v.dims.map Int.ofNat) = .ok v := by
  rw [h.length_scalars] at hsize
  rw [reshape_eq_ok (by rwa [given_map_ofNat]), hw, inferred_map_ofNat, h.length_scalars]
  exact ⟨admits_volume v.dims, h.nest_scalars⟩

end Value

/-! ## Dense arrays -/

namespace Dense

open Value

/-- There are as many entries as the extents call for. -/
def Full (d : Dense) : Prop := d.entries.toScalars.length = volume d.dims

theorem Full.nestParts_eq {d : Dense} (h : d.Full) :
    nestParts d.dims d.entries.toScalars = .ok d.toValue := nestParts_eq_nest h

theorem full_of_ofValue {v : Value} {d : Dense} (hcount : v.scalars.length < UInt64.size)
    (hsize : volume d.dims < UInt64.size) (h : ofValue v = .ok d) : d.Full := by
  obtain ⟨htallies, hdims⟩ := of_ofValue h
  have hscalars := scalars_ofValue htallies
  rw [h] at hscalars
  rw [Tallies, ← hdims, counted_of_lt hcount, counted_of_lt hsize] at htallies
  exact (Except.length_of_mapM hscalars.symm).trans htallies

theorem length_of_checked {α : Type} [Add α] [Mul α] {zero : α} {a b entries : List α} {m k n : Nat}
    (h : Backend.cpu.checked zero a b m k n = .ok entries) :
    entries.length = counted (volume [m, n]) := by
  obtain ⟨-, -, h⟩ := Except.bind_eq_ok.mp h
  obtain ⟨-, -, h⟩ := Except.bind_eq_ok.mp h
  cases h
  rw [length_productEntries, volume, volume, volume, Nat.mul_one]

theorem full_of_multiply {p q d : Dense} (hsize : volume d.dims < UInt64.size)
    (h : multiply .cpu p q = .ok d) : d.Full := by
  unfold multiply at h
  split at h
  · dsimp only at h
    split at h
    · cases h
    split at h
    · obtain ⟨entries, hentries, h⟩ := Except.bind_eq_ok.mp h
      cases h
      rw [Full, Entries.toScalars, List.length_map, length_of_checked hentries, counted_of_lt hsize]
    · obtain ⟨entries, hentries, h⟩ := Except.bind_eq_ok.mp h
      cases h
      rw [Full, Entries.toScalars, List.length_map, length_of_checked hentries, counted_of_lt hsize]
  · cases h
  · cases h

end Dense

namespace Value

/-- A value can be reshaped to a target if there are no extents below `-1`, at most one is `-1`,
and the others come to the number of scalars, or divide it if there is one. The result is
rectangular, with the extents of the target and the same scalars, and a rectangular value is found
again by its own extents. No part that is cut out of the scalars reaches past their end, nor does
one that is cut out of the entries of a dense array. All of this is as far as the positive extents
come to a number of 64 bits, and so does the number of scalars where they are counted. -/
theorem reshape_keeps_scalars (v : Value) (target : List Int)
    (hfits : (target.filter (0 < ·)).prod < UInt64.size) :
    ((∃ w, reshape v target = .ok w) ↔ Admits target v.scalars.length) ∧
    (∀ w, reshape v target = .ok w →
      w.Rect ∧ w.dims = visible (inferred target v.scalars.length) ∧ w.scalars = v.scalars ∧
        nestParts (inferred target v.scalars.length) v.scalars = .ok w ∧
        (v.Rect → v.scalars.length < UInt64.size → reshape w (v.dims.map Int.ofNat) = .ok v)) ∧
    ∀ d, Dense.ofValue v = .ok d ∧ v.scalars.length < UInt64.size ∨
        (∃ p q, Dense.multiply .cpu p q = .ok d) →
      volume d.dims < UInt64.size → nestParts d.dims d.entries.toScalars = .ok d.toValue := by
  have hgiven : volume ((target.erase (-1)).map Int.toNat) < UInt64.size :=
    Int.ofNat_lt.mp (Int.lt_of_le_of_lt (volume_given_le target) hfits)
  refine ⟨?_, fun w hw => ?_, fun d hd hsize => ?_⟩
  · simp [reshape_eq_ok hgiven]
  · obtain ⟨hadmits, rfl⟩ := (reshape_eq_ok hgiven).mp hw
    have hvolume := hadmits.volume_inferred.symm
    obtain ⟨hrect, hdims⟩ := rect_nest hvolume
    exact ⟨hrect, hdims, scalars_nest hvolume, nestParts_eq_nest hvolume,
      fun hv hcount => hv.reshape_dims hcount (scalars_nest hvolume)⟩
  · rcases hd with ⟨hpacked, hcount⟩ | ⟨p, q, hproduct⟩
    · exact (Dense.full_of_ofValue hcount hsize hpacked).nestParts_eq
    · exact (Dense.full_of_multiply hsize hproduct).nestParts_eq

/-- Six scalars in three rows; they do not make four. -/
theorem reshape_keeps_scalars_rows :
    let v := ofRows [[1, 2, 3], [4, 5, 6]]
    v.Rect ∧ Admits [3, -1] v.scalars.length ∧
      (∃ w, reshape v [3, -1] = .ok w ∧ w.Rect ∧ w.dims = [3, 2] ∧ w.scalars = v.scalars ∧
        reshape w [2, 3] = .ok v) ∧
      ¬ ∃ w, reshape v [4, -1] = .ok w := by
  intro v
  have hv : v.Rect := rect_ofRows (by simp)
  have hadmits : Admits [3, -1] v.scalars.length := ⟨by decide, by decide, by decide⟩
  obtain ⟨hiff, hkeeps, -⟩ := reshape_keeps_scalars v [3, -1] (by decide)
  obtain ⟨w, hw⟩ := hiff.mpr hadmits
  obtain ⟨hrect, hdims, hscalars, -, hback⟩ := hkeeps w hw
  refine ⟨hv, hadmits, ⟨w, hw, hrect, hdims.trans (by decide), hscalars, hback hv (by decide)⟩,
    fun hfour => ?_⟩
  exact absurd ((reshape_keeps_scalars v [4, -1] (by decide)).1.mp hfour).counts (by decide)

end Value

end Dataflow
