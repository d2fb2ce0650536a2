import Dataflow.Elementwise.Broadcast
import Dataflow.Proofs.Outcome
import Dataflow.Shape

/-!
# Extents under broadcasting

Two ways to say which extents a broadcast gives. The static rule aligns the extents at the innermost
axis and counts missing outer axes as one. The computation repeats the value of lower rank along the
outermost axis of the other until the ranks agree, so that it has the same extent on every axis that
it lacked. The two differ where the other value has further axes that this extent does not meet.
-/

namespace Dataflow

/-- The combinator that puts the scalar of an operation in its place. -/
abbrev scalarwise (op : Scalar → Scalar → Except Fault Scalar) :
    Scalar → Scalar → Except Fault Value :=
  fun s t => do return .scalar (← op s t)

namespace Value

/-! ## Extents that meet -/

theorem commonExtent?_comm (p q : Nat) : commonExtent? p q = commonExtent? q p := by
  grind [commonExtent?]

theorem commonExtent?_self (n : Nat) : commonExtent? n n = some n := by simp [commonExtent?]

theorem commonExtent?_one (n : Nat) : commonExtent? 1 n = some n := by grind [commonExtent?]

/-- The common extents of as many axes on either side. -/
def commonDims? : List Nat → List Nat → Option (List Nat)
  | [], [] => some []
  | m :: ms, n :: ns => do return (← commonExtent? m n) :: (← commonDims? ms ns)
  | _, _ => none

theorem commonDims?_cons {m n : Nat} {ms ns ds : List Nat} :
    commonDims? (m :: ms) (n :: ns) = some ds ↔
      ∃ d ds', commonExtent? m n = some d ∧ commonDims? ms ns = some ds' ∧ d :: ds' = ds := by
  simp [commonDims?, Option.bind_eq_some_iff]

theorem commonDims?_comm (ms ns : List Nat) : commonDims? ms ns = commonDims? ns ms := by
  fun_induction commonDims? ms ns with
  | case1 => rfl
  | case2 m ms n ns ih => rw [commonDims?, commonExtent?_comm n m, ih]
  | case3 ms ns h h' => cases ms <;> cases ns <;> simp_all [commonDims?]

theorem commonDims?_self (ns : List Nat) : commonDims? ns ns = some ns := by
  induction ns with
  | nil => rfl
  | cons n ns ih => simp [commonDims?, commonExtent?_self, ih]

theorem commonDims?_ones (ns : List Nat) :
    commonDims? (List.replicate ns.length 1) ns = some ns := by
  induction ns with
  | nil => rfl
  | cons n ns ih => simp [List.replicate_succ, commonDims?, commonExtent?_one, ih]

theorem length_of_commonDims? {ms ns ds : List Nat} (h : commonDims? ms ns = some ds) :
    ms.length = ds.length ∧ ns.length = ds.length := by
  induction ms generalizing ns ds with
  | nil =>
    cases ns <;> cases h
    exact ⟨rfl, rfl⟩
  | cons m ms ih =>
    cases ns with
    | nil => cases h
    | cons n ns =>
      obtain ⟨d, ds', _, hds, rfl⟩ := commonDims?_cons.mp h
      simpa using ih hds

/-- Outer and inner axes meet on their own. -/
theorem commonDims?_append {ms ns ms' ns' : List Nat} (h : ms.length = ns.length) :
    commonDims? (ms ++ ms') (ns ++ ns') =
      (do return (← commonDims? ms ns) ++ (← commonDims? ms' ns')) := by
  induction ms generalizing ns with
  | nil =>
    cases ns with
    | nil => simp [commonDims?]
    | cons n ns => simp at h
  | cons m ms ih =>
    cases ns with
    | nil => simp at h
    | cons n ns =>
      simp only [List.cons_append, commonDims?, ih (Nat.succ.inj h)]
      cases commonExtent? m n <;> cases commonDims? ms ns <;> cases commonDims? ms' ns' <;> rfl

/-! ## The static rule -/

/-- Extents for the rank `r`, with ones for the outer axes that are missing. -/
def onesTo (r : Nat) (dims : List Nat) : List Nat :=
  List.replicate (r - dims.length) 1 ++ dims

/-- The extents of two values that are broadcast, by the static rule. -/
def staticDims? (ms ns : List Nat) : Option (List Nat) :=
  commonDims? (onesTo ns.length ms) (onesTo ms.length ns)

theorem staticDims?_comm (ms ns : List Nat) : staticDims? ms ns = staticDims? ns ms :=
  commonDims?_comm _ _

/-- The outer axes that only one side has are taken over. -/
theorem staticDims?_append {ms inner : List Nat} (outer : List Nat)
    (h : ms.length = inner.length) :
    staticDims? ms (outer ++ inner) = (outer ++ ·) <$> commonDims? ms inner := by
  have hlow : onesTo (outer ++ inner).length ms = List.replicate outer.length 1 ++ ms := by
    simp [onesTo, h]
  have hhigh : onesTo ms.length (outer ++ inner) = outer ++ inner := by
    simp [onesTo, h]
  rw [staticDims?, hlow, hhigh, commonDims?_append List.length_replicate, commonDims?_ones]
  cases commonDims? ms inner <;> rfl

/-- One list of extents is read from the inner end, so what it lacks is at its far end. -/
theorem commonDims?_reverse {ms ns : List Nat} (h : ms.length = ns.length) :
    commonDims? ms.reverse ns.reverse = List.reverse <$> commonDims? ms ns := by
  induction ms generalizing ns with
  | nil =>
    cases ns with
    | nil => rfl
    | cons n ns => simp at h
  | cons m ms ih =>
    cases ns with
    | nil => simp at h
    | cons n ns =>
      have hlen : ms.length = ns.length := Nat.succ.inj h
      rw [List.reverse_cons, List.reverse_cons, commonDims?_append (by simpa using hlen), ih hlen]
      simp only [commonDims?]
      cases commonExtent? m n <;> cases commonDims? ms ns <;> simp

theorem commonExtent?_some (m n : Nat) :
    Shape.commonExtent? (some m) (some n) = some <$> commonExtent? m n := by
  simp only [Shape.commonExtent?, commonExtent?]
  grind

/-- Axes that one list lacks at its end count as one. -/
theorem broadcastReversed?_known (ms ns : List Nat) :
    Shape.broadcastReversed? (ms.map some) (ns.map some) =
      List.map some <$> commonDims? (ms ++ List.replicate (ns.length - ms.length) 1)
        (ns ++ List.replicate (ms.length - ns.length) 1) := by
  induction ms generalizing ns with
  | nil => simp [Shape.broadcastReversed?, commonDims?_ones]
  | cons m ms ih =>
    cases ns with
    | nil =>
      have hones := commonDims?_ones (m :: ms)
      rw [commonDims?_comm] at hones
      simp only [List.length_cons] at hones
      simp [Shape.broadcastReversed?, hones]
    | cons n ns =>
      simp only [List.map_cons, Shape.broadcastReversed?, commonExtent?_some, ih, List.cons_append,
        List.length_cons, Nat.add_sub_add_right, commonDims?]
      cases commonExtent? m n with
      | none => rfl
      | some d => cases commonDims? _ _ <;> rfl

/-- The static shape of two values of known extents is known. -/
theorem broadcast_known (ms ns : List Nat) :
    (Shape.known ms).broadcast (.known ns) =
      match staticDims? ms ns with
      | some ds => .ok (.known ds)
      | none => .error (.incompatibleShapes ms ns) := by
  have hlen : (onesTo ns.length ms).length = (onesTo ms.length ns).length := by
    simp [onesTo]; omega
  have hread := commonDims?_reverse hlen
  simp only [onesTo, List.reverse_append, List.reverse_replicate] at hread
  have hstatic := broadcastReversed?_known ms.reverse ns.reverse
  rw [List.length_reverse, List.length_reverse, hread] at hstatic
  simp only [Shape.broadcast, Shape.known, Shape.toListOrZero, ← List.map_reverse, hstatic]
  change _ = match commonDims? (onesTo ns.length ms) (onesTo ms.length ns) with
    | some ds => _
    | none => _
  simp only [onesTo]
  cases commonDims? _ _ <;> simp [Function.comp_def]

/-! ## The rule of the computation -/

/-- Extents with the rank of `ns`, where each axis that is missing is as long as the outermost axis
of `ns`. -/
def raisedTo (ns ms : List Nat) : List Nat :=
  List.replicate (ns.length - ms.length) (ns.headD 1) ++ ms

/-- The extents of two values that are broadcast, as the computation makes them agree. -/
def raisedDims? (ms ns : List Nat) : Option (List Nat) :=
  commonDims? (raisedTo ns ms) (raisedTo ms ns)

theorem raisedDims?_comm (ms ns : List Nat) : raisedDims? ms ns = raisedDims? ns ms :=
  commonDims?_comm _ _

theorem raisedDims?_append {ms inner : List Nat} (outer : List Nat)
    (h : ms.length = inner.length) :
    raisedDims? ms (outer ++ inner) =
      (do return (← commonDims? (List.replicate outer.length (outer.headD 1)) outer) ++
        (← commonDims? ms inner)) := by
  have hlow : raisedTo (outer ++ inner) ms =
      List.replicate outer.length (outer.headD 1) ++ ms := by
    cases outer with
    | nil => simp [raisedTo, h]
    | cons n outer =>
      have hgap : (n :: outer ++ inner).length - ms.length = (n :: outer).length := by
        rw [List.length_append]; omega
      rw [raisedTo, hgap]
      rfl
  have hhigh : raisedTo ms (outer ++ inner) = outer ++ inner := by
    simp [raisedTo, h]
  rw [raisedDims?, hlow, hhigh, commonDims?_append List.length_replicate]

/-- Repeated along an axis of `n` items, a value leaves the extents `ns` as they are if and only if
`n` is one or there is no other extent among them. -/
theorem commonDims?_replicate_eq_self {n : Nat} {ns : List Nat} :
    commonDims? (List.replicate ns.length n) ns = some ns ↔ ∀ m ∈ ns, n = 1 ∨ m = n := by
  induction ns with
  | nil => simp [commonDims?]
  | cons m ns ih =>
    rw [List.length_cons, List.replicate_succ, commonDims?_cons, List.forall_mem_cons, ← ih]
    have hm : commonExtent? n m = some m ↔ n = 1 ∨ m = n := by grind [commonExtent?]
    grind

/-! ## Where the rules agree -/

end Value

namespace Shape

/-- Repeating a value of shape `low` along the outermost axis of one of shape `high` gives it all
the extents that it lacks: the outermost extent is one, or no other extent is among those. A scalar
is not repeated. -/
def Repeats (low high : Shape) : Prop :=
  low.dims = [] ∨ ∀ d ∈ high.dims.take (high.rank - low.rank),
    high.dims.head? = some (some 1) ∨ high.dims.head? = some d

instance (low high : Shape) : Decidable (low.Repeats high) :=
  inferInstanceAs (Decidable (_ ∨ _))

theorem Repeats.of_rank_le {low high : Shape} (h : high.rank ≤ low.rank) : low.Repeats high := by
  refine .inr fun d hd => ?_
  rw [Nat.sub_eq_zero_of_le h] at hd
  cases hd

/-- Whichever shape has the lower rank, it repeats to the other one. -/
def Alike (a b : Shape) : Prop := a.Repeats b ∧ b.Repeats a

instance (a b : Shape) : Decidable (a.Alike b) :=
  inferInstanceAs (Decidable (_ ∧ _))

theorem repeats_known_append {ms inner : List Nat} (outer : List Nat) (hms : ms ≠ [])
    (h : ms.length = inner.length) :
    (known ms).Repeats (known (outer ++ inner)) ↔
      Value.commonDims? (List.replicate outer.length (outer.headD 1)) outer = some outer := by
  have hgap : (known (outer ++ inner)).rank - (known ms).rank = outer.length := by
    simp [known, rank, h]
  have htake : (known (outer ++ inner)).dims.take outer.length = outer.map some := by
    simp [known]
  rw [Value.commonDims?_replicate_eq_self, Repeats, hgap, htake]
  cases outer with
  | nil => simp
  | cons n outer =>
    have hlow : (known ms).dims ≠ [] := by simpa [known] using hms
    have hhead : (known (n :: outer ++ inner)).dims.head? = some (some n) := rfl
    simp only [hlow, hhead, false_or, List.mem_map, forall_exists_index, and_imp,
      forall_apply_eq_imp_iff₂, Option.some.injEq, List.headD_cons]
    exact forall₂_congr fun d _ => or_congr_right eq_comm

end Shape

namespace Value

theorem exists_append_of_length_le {ms ns : List Nat} (h : ms.length ≤ ns.length) :
    ∃ outer inner, ns = outer ++ inner ∧ ms.length = inner.length :=
  ⟨_, _, (List.take_append_drop (ns.length - ms.length) ns).symm, by
    rw [List.length_drop]; omega⟩

theorem raisedDims?_eq_staticDims?_of_le {ms ns : List Nat} (hle : ms.length ≤ ns.length)
    (hms : ms ≠ []) (h : (Shape.known ms).Repeats (.known ns)) :
    raisedDims? ms ns = staticDims? ms ns := by
  obtain ⟨outer, inner, rfl, hlen⟩ := exists_append_of_length_le hle
  have houter := (Shape.repeats_known_append outer hms hlen).mp h
  rw [raisedDims?_append outer hlen, staticDims?_append outer hlen, houter]
  cases commonDims? ms inner <;> rfl

theorem raisedDims?_eq_staticDims? {ms ns : List Nat} (hms : ms ≠ []) (hns : ns ≠ [])
    (h : (Shape.known ms).Alike (.known ns)) : raisedDims? ms ns = staticDims? ms ns := by
  rcases Nat.le_total ms.length ns.length with hle | hle
  · exact raisedDims?_eq_staticDims?_of_le hle hms h.1
  · rw [raisedDims?_comm, staticDims?_comm]
    exact raisedDims?_eq_staticDims?_of_le hle hns h.2

theorem raisedDims?_eq_none_of_le {ms ns : List Nat} (hle : ms.length ≤ ns.length)
    (h : staticDims? ms ns = none) : raisedDims? ms ns = none := by
  obtain ⟨outer, inner, rfl, hlen⟩ := exists_append_of_length_le hle
  have hinner : commonDims? ms inner = none := by
    simpa [staticDims?_append outer hlen] using h
  rw [raisedDims?_append outer hlen, hinner]
  cases commonDims? _ outer <;> rfl

/-- Extents that the static rule refuses are refused by the computation. -/
theorem raisedDims?_eq_none {ms ns : List Nat} (h : staticDims? ms ns = none) :
    raisedDims? ms ns = none := by
  rcases Nat.le_total ms.length ns.length with hle | hle
  · exact raisedDims?_eq_none_of_le hle h
  · rw [raisedDims?_comm]
    exact raisedDims?_eq_none_of_le hle (staticDims?_comm ms ns ▸ h)

theorem repeats_of_raisedDims?_of_le {ms ns ds : List Nat} (hle : ms.length ≤ ns.length)
    (hms : ms ≠ []) (hstatic : staticDims? ms ns = some ds)
    (hraised : raisedDims? ms ns = some ds) :
    (Shape.known ms).Repeats (.known ns) := by
  obtain ⟨outer, inner, rfl, hlen⟩ := exists_append_of_length_le hle
  rw [Shape.repeats_known_append outer hms hlen]
  rw [staticDims?_append outer hlen] at hstatic
  rw [raisedDims?_append outer hlen] at hraised
  cases hinner : commonDims? ms inner with
  | none => simp [hinner] at hstatic
  | some is =>
    rw [hinner] at hstatic hraised
    cases hstatic
    cases hrepeated : commonDims? (List.replicate outer.length (outer.headD 1)) outer with
    | none =>
      rw [hrepeated] at hraised
      cases hraised
    | some os =>
      rw [hrepeated] at hraised
      exact congrArg some (List.append_cancel_right (Option.some.inj hraised))

/-- Nowhere else do the rules agree on an answer. -/
theorem alike_of_raisedDims? {ms ns ds : List Nat} (hms : ms ≠ []) (hns : ns ≠ [])
    (hstatic : staticDims? ms ns = some ds) (hraised : raisedDims? ms ns = some ds) :
    (Shape.known ms).Alike (.known ns) := by
  rcases Nat.le_total ms.length ns.length with hle | hle
  · exact ⟨repeats_of_raisedDims?_of_le hle hms hstatic hraised,
      .of_rank_le (by simpa [Shape.rank, Shape.known] using hle)⟩
  · rw [staticDims?_comm] at hstatic
    rw [raisedDims?_comm] at hraised
    exact ⟨.of_rank_le (by simpa [Shape.rank, Shape.known] using hle),
      repeats_of_raisedDims?_of_le hle hns hstatic hraised⟩

/-! ## Values of equal rank -/

theorem dims_array_ne_nil (vs : List Value) : (Value.array vs).dims ≠ [] := by
  cases vs <;> simp

theorem length_eq_headD_dims (vs : List Value) : vs.length = (Value.array vs).dims.headD 1 := by
  cases vs <;> rfl

variable {f : Scalar → Scalar → Except Fault Value}

/-- The item that an axis shows at position `j`: an axis of one item shows it everywhere. -/
def itemAt (vs : List Value) (j : Nat) : Value :=
  vs.getD (if vs.length = 1 then 0 else j) default

@[simp] theorem itemAt_zero (v : Value) (vs : List Value) : itemAt (v :: vs) 0 = v := by
  simp [itemAt]

theorem stretch_eq_map {n : Nat} {vs : List Value} (h : vs.length = n ∨ vs.length = 1) :
    stretch n vs = (List.range n).map (itemAt vs) := by
  unfold stretch
  split
  · refine List.ext_getElem (by simp) fun j _ _ => ?_
    simp [itemAt]
  · rename_i hne
    have hlength : vs.length ≠ 1 := fun h1 => by
      obtain ⟨v, rfl⟩ := List.length_eq_one_iff.mp h1
      exact hne v rfl
    refine List.ext_getElem (by simp; omega) fun j hj _ => ?_
    simp [itemAt, hlength, List.getElem?_eq_getElem hj]

theorem length_of_commonExtent? {p q n : Nat} (h : commonExtent? p q = some n) :
    (p = n ∨ p = 1) ∧ (q = n ∨ q = 1) := by
  grind [commonExtent?]

/-- Two arrays of one rank meet item by item. -/
theorem broadcast_items {xs ys : List Value} (hrank : (array xs).rank = (array ys).rank) :
    broadcast f (.array xs) (.array ys) =
      match commonExtent? xs.length ys.length with
      | none => .error (.incompatibleShapes (array xs).dims (array ys).dims)
      | some n => do
        return .array (← (List.range n).mapM fun j => broadcast f (itemAt xs j) (itemAt ys j)) := by
  rw [broadcast]
  simp only [hrank, Nat.lt_irrefl, ↓reduceDIte]
  cases hn : commonExtent? xs.length ys.length with
  | none => rfl
  | some n =>
    obtain ⟨hxs, hys⟩ := length_of_commonExtent? hn
    dsimp only
    rw [List.mapM_subtype (g := fun p => broadcast f p.1 p.2) fun _ _ => rfl,
      List.unattach_attach, stretch_eq_map hxs, stretch_eq_map hys, List.zip_map', List.mapM_map]
    rfl

/-! ## Values of different rank -/

theorem filled_append (ms ns : List Nat) (v : Value) :
    filled (ms ++ ns) v = filled ms (filled ns v) := by
  induction ms with
  | nil => rfl
  | cons m ms ih => simp [filled, ih]

theorem dims_filled {ns : List Nat} (h : 0 ∉ ns) (v : Value) :
    (filled ns v).dims = ns ++ v.dims := by
  induction ns with
  | nil => rfl
  | cons n ns ih =>
    cases n with
    | zero => simp at h
    | succ n =>
      rw [List.mem_cons, not_or] at h
      simp [filled, List.replicate_succ, ih h.2]

/-- The value, repeated along the outermost axis of `w` as often as its rank is less than that of
`w`. -/
def raised (w v : Value) : Value := filled (List.replicate (w.rank - v.rank) w.length) v

theorem raised_of_le {v w : Value} (h : w.rank ≤ v.rank) : raised w v = v := by
  simp [raised, Nat.sub_eq_zero_of_le h, filled]

theorem one_le_length {v : Value} (h : 2 ≤ v.rank) : 1 ≤ v.length := by
  cases v with
  | scalar s => simp [rank] at h
  | array vs => cases vs <;> simp_all [rank, length]

theorem rank_filled {k n : Nat} (h : 1 ≤ n) (v : Value) :
    (filled (List.replicate k n) v).rank = k + v.rank := by
  have hzero : 0 ∉ List.replicate k n := fun h0 => by
    have := List.eq_of_mem_replicate h0
    omega
  rw [← length_dims, dims_filled hzero, List.length_append, List.length_replicate, length_dims]

theorem broadcast_repeatLeft {xs ys : List Value} (h : (array xs).rank < (array ys).rank) :
    broadcast f (.array xs) (.array ys) =
      broadcast f (.array (List.replicate ys.length (.array xs))) (.array ys) := by
  rw [broadcast, dif_pos h]

theorem broadcast_repeatRight {xs ys : List Value} (h : (array ys).rank < (array xs).rank) :
    broadcast f (.array xs) (.array ys) =
      broadcast f (.array xs) (.array (List.replicate xs.length (.array ys))) := by
  rw [broadcast, dif_neg (Nat.lt_asymm h), dif_pos h]

/-- An array of lower rank on the left is repeated until the ranks agree. -/
theorem broadcast_raise_left {k : Nat} {xs ys : List Value}
    (h : (array xs).rank + k = (array ys).rank) :
    broadcast f (.array xs) (.array ys) =
      broadcast f (filled (List.replicate k ys.length) (.array xs)) (.array ys) := by
  induction k generalizing xs with
  | zero => rfl
  | succ k ih =>
    have hxs := Pair.one_le_rank_array xs
    have hn : 1 ≤ ys.length := one_le_length (v := .array ys) (by omega)
    have hrank := rank_filled (k := 1) hn (.array xs)
    have hlower : (array xs).rank < (array ys).rank := by omega
    have hstep : broadcast f (.array xs) (.array ys) =
        broadcast f (filled [ys.length] (.array xs)) (.array ys) := broadcast_repeatLeft hlower
    rw [hstep, List.replicate_succ', filled_append]
    exact ih (by rw [← h, Nat.add_comm k 1, ← Nat.add_assoc, Nat.add_comm _ 1, ← hrank]; rfl)

/-- An array of lower rank on the right is repeated until the ranks agree. -/
theorem broadcast_raise_right {k : Nat} {xs ys : List Value}
    (h : (array ys).rank + k = (array xs).rank) :
    broadcast f (.array xs) (.array ys) =
      broadcast f (.array xs) (filled (List.replicate k xs.length) (.array ys)) := by
  induction k generalizing ys with
  | zero => rfl
  | succ k ih =>
    have hys := Pair.one_le_rank_array ys
    have hn : 1 ≤ xs.length := one_le_length (v := .array xs) (by omega)
    have hrank := rank_filled (k := 1) hn (.array ys)
    have hlower : (array ys).rank < (array xs).rank := by omega
    have hstep : broadcast f (.array xs) (.array ys) =
        broadcast f (.array xs) (filled [xs.length] (.array ys)) := broadcast_repeatRight hlower
    rw [hstep, List.replicate_succ', filled_append]
    exact ih (by rw [← h, Nat.add_comm k 1, ← Nat.add_assoc, Nat.add_comm _ 1, ← hrank]; rfl)

/-- Two arrays of any ranks are first brought to one rank. -/
theorem broadcast_raised (xs ys : List Value) :
    broadcast f (.array xs) (.array ys) =
      broadcast f (raised (.array ys) (.array xs)) (raised (.array xs) (.array ys)) := by
  rcases Nat.le_total (array xs).rank (array ys).rank with h | h
  · rw [broadcast_raise_left (Nat.add_sub_cancel' h), raised_of_le h]
    rfl
  · rw [broadcast_raise_right (Nat.add_sub_cancel' h), raised_of_le h]
    rfl

/-- A value that is repeated at all is so along an axis that has items. -/
theorem zero_notMem_repeats {v : Value} (hv : 1 ≤ v.rank) (w : Value) :
    0 ∉ List.replicate (w.rank - v.rank) w.length := fun hzero => by
  obtain ⟨hgap, hlength⟩ := List.mem_replicate.mp hzero
  have := one_le_length (v := w) (by omega)
  omega

theorem dims_raised {v : Value} (hv : 1 ≤ v.rank) (w : Value) :
    (raised w v).dims = List.replicate (w.rank - v.rank) w.length ++ v.dims :=
  dims_filled (zero_notMem_repeats hv w) v

theorem dims_raised_eq_raisedTo {v : Value} (hv : 1 ≤ v.rank) (w : Value) :
    (raised w v).dims = raisedTo w.dims v.dims := by
  have hlength : w.length = w.dims.headD 1 := by
    cases w with
    | scalar s => rfl
    | array ws => exact length_eq_headD_dims ws
  rw [dims_raised hv, raisedTo, hlength, length_dims, length_dims]

theorem rank_raised {v w : Value} (hv : 1 ≤ v.rank) (h : v.rank ≤ w.rank) :
    (raised w v).rank = w.rank := by
  rw [← length_dims, dims_raised hv, List.length_append, List.length_replicate, length_dims]
  omega

/-! ## The extents of the result -/

variable {op : Scalar → Scalar → Except Fault Scalar}

mutual

theorem dims_of_traverse {g : Scalar → Except Fault Scalar} : {v w : Value} →
    (h : v.traverse (fun s => do return .scalar (← g s)) = .ok w) → w.dims = v.dims
  | .scalar s, w, h => by
    obtain ⟨t, _, ht⟩ := Except.bind_eq_ok.mp h
    cases ht
    rfl
  | .array vs, w, h => by
    obtain ⟨ws, hws, hw⟩ := Except.bind_eq_ok.mp h
    cases hw
    exact dims_of_traverseItems hws

theorem dims_of_traverseItems {g : Scalar → Except Fault Scalar} : {vs ws : List Value} →
    (h : traverseItems (fun s => do return .scalar (← g s)) vs = .ok ws) →
      (Value.array ws).dims = (Value.array vs).dims
  | [], ws, h => by
    cases h
    rfl
  | v :: vs, ws, h => by
    obtain ⟨w, hw, h⟩ := Except.bind_eq_ok.mp h
    obtain ⟨ws', hws, h⟩ := Except.bind_eq_ok.mp h
    cases h
    have hlength : ws'.length = vs.length := by
      rw [length_eq_headD_dims, dims_of_traverseItems hws, ← length_eq_headD_dims]
    rw [dims_array_cons, dims_array_cons, dims_of_traverse hw, hlength]

end

theorem eq_scalar_of_rank {v : Value} (h : v.rank = 0) : ∃ s, v = .scalar s := by
  rcases v with s | vs
  · exact ⟨s, rfl⟩
  · have := Pair.one_le_rank_array vs
    omega

theorem eq_array_of_rank {v : Value} {k : Nat} (h : v.rank = k + 1) : ∃ vs, v = .array vs := by
  rcases v with s | vs
  · cases h
  · exact ⟨vs, rfl⟩

theorem exists_items_of_commonExtent? {n : Nat} {xs ys : List Value}
    (h : commonExtent? xs.length ys.length = some (n + 1)) :
    ∃ x xs', xs = x :: xs' ∧ ∃ y ys', ys = y :: ys' := by
  cases xs <;> cases ys <;> simp_all [commonExtent?]

/-- An axis without items leaves no room for further axes. -/
theorem commonDims?_of_no_item {xs ys : List Value} (hrank : (array xs).rank = (array ys).rank)
    (h : commonExtent? xs.length ys.length = some 0) :
    commonDims? (array xs).dims (array ys).dims = some [0] := by
  have hdims : (array xs).dims.length = (array ys).dims.length := by
    rw [length_dims, length_dims, hrank]
  rcases xs with _ | ⟨x, _ | ⟨x', xs⟩⟩ <;> rcases ys with _ | ⟨y, _ | ⟨y', ys⟩⟩ <;>
    simp_all [commonExtent?, commonDims?]

/-- Where no axis is missing, the result has the common extents. -/
theorem commonDims?_of_broadcast {k : Nat} {a b v : Value} (ha : a.rank = k) (hb : b.rank = k)
    (h : broadcast (scalarwise op) a b = .ok v) : commonDims? a.dims b.dims = some v.dims := by
  induction k generalizing a b v with
  | zero =>
    obtain ⟨s, rfl⟩ := eq_scalar_of_rank ha
    obtain ⟨t, rfl⟩ := eq_scalar_of_rank hb
    rw [broadcast] at h
    obtain ⟨r, _, hr⟩ := Except.bind_eq_ok.mp h
    cases hr
    rfl
  | succ k ih =>
    obtain ⟨xs, rfl⟩ := eq_array_of_rank ha
    obtain ⟨ys, rfl⟩ := eq_array_of_rank hb
    rw [broadcast_items (ha.trans hb.symm)] at h
    cases hn : commonExtent? xs.length ys.length with
    | none =>
      rw [hn] at h
      cases h
    | some n =>
      rw [hn] at h
      obtain ⟨items, hitems, hv⟩ := Except.bind_eq_ok.mp h
      cases hv
      cases n with
      | zero =>
        cases hitems
        exact commonDims?_of_no_item (ha.trans hb.symm) hn
      | succ n =>
        -- The extents of the result are read off its first item, and so are those of the operands.
        obtain ⟨x, xs, rfl, y, ys, rfl⟩ := exists_items_of_commonExtent? hn
        rw [List.range_succ_eq_map, List.mapM_cons] at hitems
        obtain ⟨w, hw, hitems⟩ := Except.bind_eq_ok.mp hitems
        obtain ⟨ws, hws, hitems⟩ := Except.bind_eq_ok.mp hitems
        cases hitems
        have hlength := Except.length_of_mapM hws
        rw [List.length_map, List.length_range] at hlength
        rw [itemAt_zero, itemAt_zero] at hw
        have hinner := ih (Nat.succ.inj ha) (Nat.succ.inj hb) hw
        exact commonDims?_cons.mpr ⟨n + 1, w.dims, hn, hinner, by rw [dims_array_cons, hlength]⟩

theorem rank_raised_eq (xs ys : List Value) :
    (raised (.array ys) (.array xs)).rank = (raised (.array xs) (.array ys)).rank := by
  rcases Nat.le_total (array xs).rank (array ys).rank with hle | hle
  · rw [rank_raised (Pair.one_le_rank_array xs) hle, raised_of_le hle]
  · rw [rank_raised (Pair.one_le_rank_array ys) hle, raised_of_le hle]

/-- The extents that the computation makes the operands agree on are those of the result. -/
theorem raisedDims?_of_broadcast {xs ys : List Value} {v : Value}
    (h : broadcast (scalarwise op) (.array xs) (.array ys) = .ok v) :
    raisedDims? (array xs).dims (array ys).dims = some v.dims := by
  have hxs := Pair.one_le_rank_array xs
  have hys := Pair.one_le_rank_array ys
  rw [broadcast_raised] at h
  rw [raisedDims?, ← dims_raised_eq_raisedTo hxs, ← dims_raised_eq_raisedTo hys]
  exact commonDims?_of_broadcast (rank_raised_eq xs ys) rfl h

theorem staticDims?_nil (ns : List Nat) : staticDims? [] ns = some ns := by
  simp [staticDims?, onesTo, commonDims?_ones]

/-- The result has the extents of the static rule just where one operand repeats to the other. -/
theorem staticDims?_eq_some_iff_alike {a b v : Value}
    (h : broadcast (scalarwise op) a b = .ok v) :
    staticDims? a.dims b.dims = some v.dims ↔ (Shape.known a.dims).Alike (.known b.dims) := by
  rcases a with s | xs <;> rcases b with t | ys
  · rw [broadcast] at h
    obtain ⟨r, _, hr⟩ := Except.bind_eq_ok.mp h
    cases hr
    exact iff_of_true rfl ⟨.inl rfl, .inl rfl⟩
  · rw [broadcast] at h
    rw [dims_of_traverse h]
    exact iff_of_true (staticDims?_nil _) ⟨.inl rfl, .of_rank_le (Nat.zero_le _)⟩
  · rw [broadcast] at h
    rw [dims_of_traverse h, staticDims?_comm]
    exact iff_of_true (staticDims?_nil _) ⟨.of_rank_le (Nat.zero_le _), .inl rfl⟩
  · have hxs := dims_array_ne_nil xs
    have hys := dims_array_ne_nil ys
    have hraised := raisedDims?_of_broadcast h
    exact ⟨fun hstatic => alike_of_raisedDims? hxs hys hstatic hraised,
      fun halike => raisedDims?_eq_staticDims? hxs hys halike ▸ hraised⟩

end Value

end Dataflow
