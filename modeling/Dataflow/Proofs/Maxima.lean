import Dataflow.Axis.Argmax
import Dataflow.Proofs.Boxes
import Dataflow.Proofs.Doubles
import Dataflow.Proofs.Joining

/-!
# The positions of the maxima

The position of the maximum on a line of numbers is the least one whose number no other one on the
line is greater than, as doubles. The operator that compares numbers has the same opinion as long as
no two different words on the line come to the same double: it compares words exactly.
-/

namespace Dataflow

/-! ## Numbers with an order -/

namespace Scalar

/-- A number other than NaN. -/
def IsOrdered : Scalar → Prop
  | .int _ | .bool _ => True
  | .float x => x.isNaN = false
  | .str _ => False

/-- The word that takes part in arithmetic. -/
def word? : Scalar → Option Int64
  | .int i => some i
  | .bool b => some (if b then 1 else 0)
  | _ => none

/-- The place of a number among the doubles. -/
def place (s : Scalar) : Int :=
  match s.asFloat with
  | .ok x => Double.place x
  | .error _ => 0

variable {s t : Scalar} {a b : Int64}

theorem asFloat_of_word (h : s.word? = some a) : s.asFloat = .ok (Word.toFloat a) := by
  cases s with
  | int i =>
    cases h
    rfl
  | bool b =>
    cases h
    cases b <;> exact congrArg Except.ok (by decide +kernel)
  | float x => cases h
  | str s => cases h

theorem place_of_word (h : s.word? = some a) : s.place = Double.place (Word.toFloat a) := by
  rw [place, asFloat_of_word h]

theorem ofValue_of_word (h : s.word? = some a) : Number.ofValue (.scalar s) = .ok (.int a) := by
  cases s with
  | int i =>
    cases h
    rfl
  | bool b =>
    cases h
    rfl
  | float x => cases h
  | str s => cases h

/-- A number with an order is a word or a double. -/
theorem IsOrdered.cases (h : s.IsOrdered) :
    (∃ a, s.word? = some a) ∨ ∃ x, s = .float x ∧ x.isNaN = false := by
  cases s with
  | int i => exact .inl ⟨i, rfl⟩
  | bool b => exact .inl ⟨_, rfl⟩
  | float x => exact .inr ⟨x, rfl, h⟩
  | str s => exact h.elim

theorem IsOrdered.exists_asFloat (h : s.IsOrdered) :
    ∃ x, s.asFloat = .ok x ∧ x.isNaN = false ∧ s.place = Double.place x := by
  rcases h.cases with ⟨a, ha⟩ | ⟨x, rfl, hx⟩
  · exact ⟨_, asFloat_of_word ha, (Word.toFloat_spec a).1, place_of_word ha⟩
  · exact ⟨x, rfl, hx, rfl⟩

/-- Whether one number is greater than another, as doubles. -/
def exceeds (t s : Scalar) : Except Fault Bool := do
  return decide ((← t.asFloat) > (← s.asFloat))

theorem exceeds_eq_place (ht : t.IsOrdered) (hs : s.IsOrdered) :
    t.exceeds s = .ok (decide (s.place < t.place)) := by
  obtain ⟨x, hx, hxnan, hxplace⟩ := ht.exists_asFloat
  obtain ⟨y, hy, hynan, hyplace⟩ := hs.exists_asFloat
  rw [exceeds, hx, hy, hxplace, hyplace]
  exact congrArg Except.ok (decide_eq_decide.mpr (Double.lt_iff_place hynan hxnan))

/-- Whether one number is greater than another, for the operator that compares them. -/
def greater (t s : Scalar) : Except Fault Bool :=
  BinaryOp.compare (.comparison .greater) (.scalar t) (.scalar s)

theorem greater_of_ofValue {x y : Number} (hx : Number.ofValue (.scalar t) = .ok x)
    (hy : Number.ofValue (.scalar s) = .ok y) :
    t.greater s = .ok (Comparison.greater.holds (Number.compare? x y)) :=
  Comparison.greater.apply_of_ofValue hx hy

theorem holds_greater_doubles {x y : Float} (hx : x.isNaN = false) (hy : y.isNaN = false) :
    Comparison.greater.holds (Double.compare? x y) = decide (Double.place y < Double.place x) := by
  rw [Double.compare?_eq_place hx hy, Bool.eq_iff_iff, decide_eq_true_iff, ← compare_gt_iff_gt]
  exact beq_iff_eq

/-- Words that differ are apart as doubles as well, if they are not the same double. -/
theorem holds_greater_words (h : (Word.toFloat a == Word.toFloat b) = true → a = b) :
    Comparison.greater.holds (Number.compare? (.int a) (.int b)) =
      decide (Double.place (Word.toFloat b) < Double.place (Word.toFloat a)) := by
  rw [Double.beq_iff_place (Word.toFloat_spec a).1 (Word.toFloat_spec b).1] at h
  rw [Number.compare?, compareOfLessAndEq, Bool.eq_iff_iff, decide_eq_true_iff]
  rcases Int64.lt_or_le a b with hlt | hle
  · have hmono := Word.place_toFloat_mono (Int64.le_of_lt hlt)
    rw [if_pos hlt]
    exact iff_of_false Bool.false_ne_true hmono.not_gt
  · rw [if_neg (Int64.not_lt.mpr hle)]
    by_cases heq : a = b
    · rw [if_pos heq, heq]
      exact iff_of_false Bool.false_ne_true (lt_irrefl _)
    · have hmono := Word.place_toFloat_mono hle
      rw [if_neg heq]
      exact iff_of_true rfl (lt_of_le_of_ne hmono fun hsame => heq (h hsame.symm))

/-- Numbers are compared as their doubles are, words only if they are not different words with the
same double. -/
theorem greater_eq_place (ht : t.IsOrdered) (hs : s.IsOrdered)
    (hwords : ∀ a b, t.word? = some a → s.word? = some b →
      (Word.toFloat a == Word.toFloat b) = true → a = b) :
    t.greater s = .ok (decide (s.place < t.place)) := by
  rcases ht.cases with ⟨a, ha⟩ | ⟨x, rfl, hx⟩
  · have hnan := (Word.toFloat_spec a).1
    rw [place_of_word ha]
    rcases hs.cases with ⟨b, hb⟩ | ⟨y, rfl, hy⟩
    · rw [greater_of_ofValue (ofValue_of_word ha) (ofValue_of_word hb), place_of_word hb,
        holds_greater_words (hwords a b ha hb)]
    · rw [greater_of_ofValue (ofValue_of_word ha) rfl]
      exact congrArg Except.ok (holds_greater_doubles hnan hy)
  · rcases hs.cases with ⟨b, hb⟩ | ⟨y, rfl, hy⟩
    · have hnan := (Word.toFloat_spec b).1
      rw [greater_of_ofValue rfl (ofValue_of_word hb), place_of_word hb]
      exact congrArg Except.ok (holds_greater_doubles hx hnan)
    · rw [greater_of_ofValue rfl rfl]
      exact congrArg Except.ok (holds_greater_doubles hx hy)

end Scalar

/-! ## Lines -/

/-- The first position at which the largest of the keys stands. -/
structure FirstMax (keys : List Int) (p : Nat) (k : Int) : Prop where
  here : keys[p]? = some k
  le : ∀ l ∈ keys, l ≤ k
  lt : ∀ q l, q < p → keys[q]? = some l → l < k

namespace FirstMax

variable {keys : List Int} {p : Nat} {k l : Int}

theorem singleton (k : Int) : FirstMax [k] 0 k where
  here := rfl
  le _ h := (List.mem_singleton.mp h).le
  lt _ _ h := absurd h (Nat.not_lt_zero _)

theorem position_lt (h : FirstMax keys p k) : p < keys.length :=
  (List.getElem?_eq_some_iff.mp h.here).1

/-- A key that is larger than all before it is the new maximum. -/
theorem concat_of_lt (h : FirstMax keys p k) (hl : k < l) :
    FirstMax (keys ++ [l]) keys.length l where
  here := List.getElem?_concat_length
  le := by
    rw [List.forall_mem_append, List.forall_mem_singleton]
    exact ⟨fun l' hl' => (h.le l' hl').trans hl.le, le_rfl⟩
  lt q l' hq hl' := by
    rw [List.getElem?_append_left hq] at hl'
    exact (h.le l' (List.mem_of_getElem? hl')).trans_lt hl

theorem concat_of_le (h : FirstMax keys p k) (hl : l ≤ k) : FirstMax (keys ++ [l]) p k where
  here := by rw [List.getElem?_append_left h.position_lt, h.here]
  le := by
    rw [List.forall_mem_append, List.forall_mem_singleton]
    exact ⟨h.le, hl⟩
  lt q l' hq hl' := by
    rw [List.getElem?_append_left (hq.trans h.position_lt)] at hl'
    exact h.lt q l' hq hl'

end FirstMax

/-- The positions on a line whose number no other one on the line is greater than. -/
def unexceeded (greater : Scalar → Scalar → Except Fault Bool) (entries : List Scalar) : Set Nat :=
  {p | ∃ s, entries[p]? = some s ∧ ∀ q t, q ≠ p → entries[q]? = some t → greater t s = .ok false}

theorem FirstMax.isLeast {entries : List Scalar} {p : Nat} {k : Int}
    {greater : Scalar → Scalar → Except Fault Bool} (h : FirstMax (entries.map Scalar.place) p k)
    (hgreater : ∀ t ∈ entries, ∀ s ∈ entries, greater t s = .ok (decide (s.place < t.place))) :
    IsLeast (unexceeded greater entries) p := by
  have hhere := h.here
  rw [List.getElem?_map, Option.map_eq_some_iff] at hhere
  obtain ⟨s, hs, hk⟩ := hhere
  have hsmem := List.mem_of_getElem? hs
  constructor
  · refine ⟨s, hs, fun q t hq ht => ?_⟩
    have htmem := List.mem_of_getElem? ht
    have hle : t.place ≤ s.place := hk ▸ h.le _ (List.mem_map_of_mem htmem)
    rw [hgreater t htmem s hsmem, decide_eq_false hle.not_gt]
  · rintro q ⟨t, ht, hother⟩
    by_contra hlt
    -- The number at `p` is greater than one at a position before it.
    have hq : q < p := Nat.not_le.mp hlt
    have hgt : t.place < s.place := by
      refine hk ▸ h.lt q t.place hq ?_
      rw [List.getElem?_map, ht, Option.map_some]
    have hfalse := hother p s hq.ne' hs
    rw [hgreater s hsmem t (List.mem_of_getElem? ht), decide_eq_true hgt] at hfalse
    cases hfalse

/-- No two different words on a line come to the same double. -/
def Apart (entries : List Scalar) : Prop :=
  ∀ t ∈ entries, ∀ s ∈ entries, ∀ a b, t.word? = some a → s.word? = some b →
    (Word.toFloat a == Word.toFloat b) = true → a = b

/-- Up to 2^53 in magnitude, words are doubles. -/
theorem apart_of_natAbs_le {entries : List Scalar}
    (h : ∀ s ∈ entries, ∀ a, s.word? = some a → a.toInt.natAbs ≤ 2 ^ 53) : Apart entries := by
  intro t ht s hs a b ha hb heq
  rw [Double.beq_iff_place (Word.toFloat_spec a).1 (Word.toFloat_spec b).1] at heq
  exact Word.place_toFloat_inj (h t ht a ha) (h s hs b hb) heq

namespace Value

/-! ## The scan of a line -/

/-- The scan of the rest of a line finds the first maximum of the whole line. -/
theorem exists_argmaxFrom {rest : List Scalar} {seen : List Int} {position : Nat} {best : Float}
    (hbest : best.isNaN = false) (hseen : FirstMax seen position (Double.place best))
    (hrest : ∀ s ∈ rest, s.IsOrdered) :
    ∃ p k, argmaxFrom position best seen.length (rest.map .scalar) = .ok p ∧
      FirstMax (seen ++ rest.map Scalar.place) p k := by
  induction rest generalizing seen position best with
  | nil => exact ⟨position, _, rfl, by simpa using hseen⟩
  | cons s rest ih =>
    obtain ⟨x, hx, hnan, hplace⟩ := (hrest s List.mem_cons_self).exists_asFloat
    have hrest : ∀ t ∈ rest, t.IsOrdered := fun t ht => hrest t (List.mem_cons_of_mem s ht)
    have hlength : seen.length + 1 = (seen ++ [s.place]).length := by simp
    have hfloat : Value.asFloat (.scalar s) = .ok x := hx
    rw [List.map_cons, List.map_cons, argmaxFrom, hfloat, List.append_cons, hlength]
    by_cases hgt : x > best
    · have hlt := (Double.lt_iff_place hbest hnan).mp hgt
      have hstep : FirstMax (seen ++ [s.place]) seen.length (Double.place x) := by
        rw [hplace]
        exact hseen.concat_of_lt hlt
      obtain ⟨p, k, hp, hk⟩ := ih hnan hstep hrest
      exact ⟨p, k, (if_pos hgt).trans hp, hk⟩
    · have hle : s.place ≤ Double.place best := by
        rw [hplace]
        exact Int.not_lt.mp (mt (Double.lt_iff_place hbest hnan).mpr hgt)
      obtain ⟨p, k, hp, hk⟩ := ih hbest (hseen.concat_of_le hle) hrest
      exact ⟨p, k, (if_neg hgt).trans hp, hk⟩

/-! ## Lines along an axis -/

/-- The value `w` has in each place the first position of the maximum on the line that `entry` puts
there. -/
structure Peaks (ns : List Nat) (entry : List Nat → Nat → Option Scalar) (w : Value) : Prop where
  rect : w.Rect
  dims : w.dims = ns
  position : ∀ i ∈ indices ns, ∃ (entries : List Scalar) (p : Nat) (k : Int),
    (∀ q, entries[q]? = entry i q) ∧ FirstMax (entries.map Scalar.place) p k ∧
      w.at? i = some (.int (Int64.ofNat p))

/-- Items that have the positions for their places make up an array that has them for all. -/
theorem Peaks.array {ns : List Nat} {entry : List Nat → Nat → Option Scalar} {ws : List Value}
    (h : ∀ j (hj : j < ws.length), Peaks ns (fun js => entry (j :: js)) ws[j])
    (hnil : ws = [] → ns = []) : Peaks (ws.length :: ns) entry (.array ws) := by
  have hitems : ∀ w ∈ ws, w.Rect ∧ w.dims = ns := by
    intro w hw
    obtain ⟨j, hj, rfl⟩ := List.getElem_of_mem hw
    exact ⟨(h j hj).rect, (h j hj).dims⟩
  obtain ⟨hrect, hdims⟩ := rect_array hitems hnil
  refine ⟨hrect, hdims, fun i hi => ?_⟩
  obtain ⟨j, js, hj, hjs, rfl⟩ := mem_indices_cons.mp hi
  rw [at?_cons hj]
  exact (h j hj).position js hjs

theorem Peaks.congr {ns : List Nat} {entry entry' : List Nat → Nat → Option Scalar} {w : Value}
    (h : Peaks ns entry w) (heq : ∀ i q, entry i q = entry' i q) : Peaks ns entry' w := by
  obtain rfl : entry = entry' := funext fun i => funext fun q => heq i q
  exact h

theorem exists_scalars {vs : List Value} (h : ∀ v ∈ vs, v.dims = []) :
    ∃ ss : List Scalar, vs = ss.map .scalar := by
  have hrange : vs ∈ Set.range (List.map Value.scalar) := by
    refine (Set.range_list_map _).ge fun v hv => ?_
    have hrank : v.rank = 0 := by
      rw [← length_dims, h v hv]
      rfl
    obtain ⟨s, rfl⟩ := eq_scalar_of_rank hrank
    exact ⟨s, rfl⟩
  obtain ⟨ss, rfl⟩ := hrange
  exact ⟨ss, rfl⟩

theorem mapM_column {arrays : List (List Value)} {j : Nat} (dims : List Nat)
    (h : ∀ xs ∈ arrays, j < xs.length) :
    (arrays.map Value.array).mapM (column dims j) = .ok (layer arrays j) := by
  have hcolumn : ∀ xs ∈ arrays, column dims j (.array xs) = .ok (xs.getD j default) := by
    intro xs hxs
    simp [column, items?, h xs hxs]
  rw [List.mapM_map]
  exact (Except.mapM_congr hcolumn).trans List.mapM_pure

theorem exists_argmaxColumns {arrays : List (List Value)} {items : List Value} {j : Nat}
    {P : Nat → Value → Prop} (dims : List Nat)
    (hlength : ∀ xs ∈ arrays, xs.length = j + items.length)
    (h : ∀ t (ht : t < items.length), ∃ w,
      argmaxAcross (layer arrays (j + t)) items[t] = .ok w ∧ P (j + t) w) :
    ∃ ws, argmaxColumns (arrays.map .array) dims j items = .ok ws ∧ ws.length = items.length ∧
      ∀ t (ht : t < ws.length), P (j + t) ws[t] := by
  -- The column moves on with the items, so the induction is for every first column.
  induction items generalizing j with
  | nil => exact ⟨[], rfl, rfl, fun t ht => absurd ht (Nat.not_lt_zero t)⟩
  | cons item items ih =>
    have hcolumn := mapM_column dims (j := j) fun xs hxs => by
      rw [hlength xs hxs, List.length_cons]
      omega
    obtain ⟨w, hw, hP⟩ := h 0 (Nat.succ_pos _)
    obtain ⟨ws, hws, hwslength, hall⟩ := ih (j := j + 1)
      (fun xs hxs => by rw [hlength xs hxs, List.length_cons]; omega)
      fun t ht => by
        have hnext := h (t + 1) (Nat.succ_lt_succ ht)
        rwa [← Nat.add_assoc, Nat.add_right_comm] at hnext
    refine ⟨w :: ws, ?_, congrArg Nat.succ hwslength, fun t ht => ?_⟩
    · have hw : argmaxAcross (layer arrays j) item = .ok w := hw
      rw [argmaxColumns, hcolumn]
      dsimp only [bind, Except.bind]
      rw [hw, hws]
      rfl
    · cases t with
      | zero => exact hP
      | succ t =>
        have hlater := hall t (Nat.lt_of_succ_lt_succ ht)
        rwa [Nat.add_right_comm, Nat.add_assoc] at hlater

theorem length_of_dims {vs : List Value} {n : Nat} {ns : List Nat}
    (h : (Value.array vs).dims = n :: ns) : vs.length = n := by
  obtain ⟨ms, hms⟩ := exists_dims vs
  exact (List.cons.inj (hms.symm.trans h)).1

theorem isOrdered_of_mem {vs : List Value} {v : Value} (hv : v ∈ vs)
    (h : ∀ s ∈ (Value.array vs).scalars, s.IsOrdered) : ∀ s ∈ v.scalars, s.IsOrdered := by
  intro s hs
  refine h s ?_
  rw [scalars_array]
  exact List.mem_flatMap.mpr ⟨v, hv, hs⟩

theorem rect_layer {arrays : List (List Value)} {n t : Nat} {ns : List Nat} (ht : t < n)
    (h : ∀ xs ∈ arrays, Rect (.array xs) ∧ (Value.array xs).dims = n :: ns) :
    ∀ v ∈ layer arrays t, v.Rect ∧ v.dims = ns := by
  rw [layer, List.forall_mem_map]
  intro xs hxs
  obtain ⟨hrect, hdims⟩ := h xs hxs
  have hmem : xs.getD t default ∈ xs := getD_mem (length_of_dims hdims ▸ ht)
  exact ⟨hrect.of_mem hmem, hrect.dims_of_mem hdims hmem⟩

theorem isOrdered_layer {arrays : List (List Value)} {t : Nat} (ht : ∀ xs ∈ arrays, t < xs.length)
    (h : ∀ xs ∈ arrays, ∀ s ∈ (Value.array xs).scalars, s.IsOrdered) :
    ∀ v ∈ layer arrays t, ∀ s ∈ v.scalars, s.IsOrdered := by
  rw [layer, List.forall_mem_map]
  exact fun xs hxs => isOrdered_of_mem (getD_mem (ht xs hxs)) (h xs hxs)

/-- The item at a position of arrays that are all as long. -/
theorem at?_layer {items : List Value} {arrays : List (List Value)} {t : Nat}
    (ht : t < items.length) (hlength : ∀ xs ∈ arrays, xs.length = items.length) (js : List Nat)
    (q : Nat) :
    (items[t] :: layer arrays t)[q]?.bind (at? js) =
      (Value.array items :: arrays.map .array)[q]?.bind (at? (t :: js)) := by
  cases q with
  | zero => exact (at?_cons ht js).symm
  | succ q =>
    rw [List.getElem?_cons_succ, List.getElem?_cons_succ, layer, List.getElem?_map,
      List.getElem?_map]
    cases hq : arrays[q]? with
    | none => rfl
    | some xs =>
      have hlt : t < xs.length := hlength xs (List.mem_of_getElem? hq) ▸ ht
      simp [at?_cons hlt, List.getElem?_eq_getElem hlt]

theorem peaks_scalar {s : Scalar} {ss : List Scalar} {p : Nat} {k : Int}
    (h : FirstMax ((s :: ss).map Scalar.place) p k) :
    Peaks [] (fun i q => (Value.scalar s :: ss.map .scalar)[q]?.bind (at? i))
      (.scalar (.int (Int64.ofNat p))) where
  rect := .scalar _
  dims := rfl
  position i hi := by
    cases mem_indices_nil.mp hi
    refine ⟨s :: ss, p, k, fun q => ?_, h, rfl⟩
    rw [← List.map_cons, List.getElem?_map]
    cases (s :: ss)[q]? <;> rfl

/-- The positions of the maxima on the lines that lead from the places of a value through those of
the values beside it. -/
theorem Rect.exists_argmaxAcross {first : Value} {rest : List Value} (h : first.Rect)
    (hrest : ∀ v ∈ rest, v.Rect ∧ v.dims = first.dims)
    (hordered : ∀ v ∈ first :: rest, ∀ s ∈ v.scalars, s.IsOrdered) :
    ∃ w, argmaxAcross rest first = .ok w ∧
      Peaks first.dims (fun i q => (first :: rest)[q]?.bind (at? i)) w := by
  induction h generalizing rest with
  | scalar s =>
    obtain ⟨ss, rfl⟩ := exists_scalars fun v hv => (hrest v hv).2
    simp only [List.forall_mem_cons, List.forall_mem_map, scalars_scalar, List.mem_singleton,
      forall_eq] at hordered
    obtain ⟨hs, hss⟩ := hordered
    obtain ⟨x, hx, hnan, hplace⟩ := hs.exists_asFloat
    have hfirst : FirstMax [s.place] 0 (Double.place x) := by
      rw [hplace]
      exact FirstMax.singleton _
    obtain ⟨p, k, hp, hk⟩ := exists_argmaxFrom hnan hfirst hss
    rw [List.length_singleton] at hp
    refine ⟨.scalar (.int (Int64.ofNat p)), ?_, peaks_scalar hk⟩
    rw [argmaxAcross, hx]
    dsimp only [bind, Except.bind]
    rw [hp]
    rfl
  | @array items hitems even ih =>
    have hrect : Rect (.array items) := .array hitems even
    obtain ⟨ns, hdims⟩ := exists_dims items
    have hrank : ∀ v ∈ rest, 0 < v.rank := by
      intro v hv
      rw [← length_dims, (hrest v hv).2, hdims]
      exact Nat.succ_pos _
    obtain ⟨arrays, rfl⟩ := exists_arrays_of_rank hrank
    rw [hdims, List.forall_mem_map] at hrest
    rw [List.forall_mem_cons, List.forall_mem_map] at hordered
    have hlength : ∀ xs ∈ arrays, xs.length = items.length := fun xs hxs =>
      length_of_dims (hrest xs hxs).2
    -- Each column is taken on its own.
    have hcolumn : ∀ t (ht : t < items.length), ∃ w,
        argmaxAcross (layer arrays t) items[t] = .ok w ∧
          Peaks ns (fun js q => (Value.array items :: arrays.map .array)[q]?.bind
            (at? (t :: js))) w := by
      intro t ht
      have hmem := List.getElem_mem ht
      have hns := hrect.dims_of_mem hdims hmem
      have hlayer := rect_layer ht hrest
      have hlt : ∀ xs ∈ arrays, t < xs.length := fun xs hxs => hlength xs hxs ▸ ht
      obtain ⟨w, hw, hpeaks⟩ := ih items[t] hmem (hns ▸ hlayer) (List.forall_mem_cons.mpr
        ⟨isOrdered_of_mem hmem hordered.1, isOrdered_layer hlt hordered.2⟩)
      exact ⟨w, hw, hns ▸ hpeaks.congr fun js q => at?_layer ht hlength js q⟩
    obtain ⟨ws, hws, hwslength, hall⟩ := exists_argmaxColumns
      (P := fun t w => Peaks ns (fun js q => (Value.array items :: arrays.map .array)[q]?.bind
        (at? (t :: js))) w) (Value.array items).dims
      (fun xs hxs => (hlength xs hxs).trans (Nat.zero_add _).symm)
      (by simpa only [Nat.zero_add] using hcolumn)
    refine ⟨.array ws, ?_, ?_⟩
    · rw [argmaxAcross, hws]
      rfl
    · rw [hdims, ← hwslength]
      simp only [Nat.zero_add] at hall
      refine Peaks.array hall ?_
      rintro rfl
      have hnil : items = [] := List.length_eq_zero_iff.mp hwslength.symm
      rw [hnil] at hdims
      exact (List.cons.inj hdims).2.symm

/-- The positions of the maxima on the lines along the axis at depth `d`. -/
theorem Rect.exists_argmaxAt {v : Value} {d : Nat} (h : v.Rect) (hpos : 0 < v.extentAt d)
    (hordered : ∀ s ∈ v.scalars, s.IsOrdered) :
    ∃ w, argmaxAt d v = .ok w ∧
      Peaks (v.dims.eraseIdx d) (fun i q => v.at? (i.insertIdx d q)) w := by
  induction d generalizing v with
  | zero =>
    cases v with
    | scalar s => cases hpos
    | array items =>
      cases items with
      | nil => cases hpos
      | cons first rest =>
        -- The axis is the outermost one, and the lines along it are the columns.
        have hrest : ∀ u ∈ rest, u.Rect ∧ u.dims = first.dims := by
          intro u hu
          have hmem := List.mem_cons_of_mem first hu
          exact ⟨h.of_mem hmem, h.dims_of_mem (dims_array_cons first rest) hmem⟩
        have hcolumns : ∀ u ∈ first :: rest, ∀ s ∈ u.scalars, s.IsOrdered :=
          fun u hu => isOrdered_of_mem hu hordered
        exact (h.of_mem List.mem_cons_self).exists_argmaxAcross hrest hcolumns
  | succ d ih =>
    cases v with
    | scalar s => cases hpos
    | array rows =>
      obtain ⟨ns, hdims⟩ := exists_dims rows
      rw [extentAt, hdims, List.getD_cons_succ] at hpos
      -- The axis lies inside the rows, each of which has its own maxima.
      have hrow : ∀ row ∈ rows, ∃ w, argmaxAt d row = .ok w ∧
          Peaks (ns.eraseIdx d) (fun i q => row.at? (i.insertIdx d q)) w := by
        intro row hrow
        have hns := h.dims_of_mem hdims hrow
        obtain ⟨w, hw, hpeaks⟩ := ih (h.of_mem hrow) (by rwa [extentAt, hns])
          (isOrdered_of_mem hrow hordered)
        exact ⟨w, hw, hns ▸ hpeaks⟩
      obtain ⟨ws, hws, hall⟩ := Except.exists_mapM hrow
      have hlength : rows.length = ws.length := hall.length_eq
      refine ⟨.array ws, by rw [argmaxAt, hws]; rfl, ?_⟩
      rw [hdims, List.eraseIdx_cons_succ, hlength]
      refine Peaks.array (fun j hj => ?_) ?_
      · have hj' : j < rows.length := hlength ▸ hj
        refine (hall.get hj' hj).congr fun js q => ?_
        rw [List.insertIdx_succ_cons, at?_cons hj']
        rfl
      · rintro rfl
        have hnil : rows = [] := List.length_eq_zero_iff.mp hlength
        rw [hnil] at hdims
        rw [← (List.cons.inj hdims).2] at hpos
        cases hpos

theorem argmax_eq_argmaxAt {v : Value} {axis : Int} {d : Nat}
    (haxis : Reduction.position v axis = d) (hd : d < v.rank) : argmax v axis = argmaxAt d v := by
  have hrange : ¬ (Reduction.position v axis < 0 ∨ v.rank ≤ Reduction.position v axis) := by
    omega
  have hdepth : (Reduction.position v axis).toNat = d := by
    rw [haxis, Int.toNat_natCast]
  exact (if_neg hrange).trans (congrArg (argmaxAt · v) hdepth)

/-- Each entry of the result is the least position on its line whose number no other one there is
greater than, as doubles. The operator that compares numbers says the same, if no two different
words on the line come to the same double. -/
theorem Rect.argmax_isLeast {v : Value} {axis : Int} {d : Nat} (h : v.Rect)
    (hordered : ∀ s ∈ v.scalars, s.IsOrdered) (haxis : Reduction.position v axis = d)
    (hpos : 0 < v.extentAt d) :
    ∃ w, argmax v axis = .ok w ∧ w.Rect ∧ w.dims = v.dims.eraseIdx d ∧
      ∀ i ∈ indices w.dims, ∃ (entries : List Scalar) (p : Nat),
        (∀ q, entries[q]? = v.at? (i.insertIdx d q)) ∧ w.at? i = some (.int (Int64.ofNat p)) ∧
          IsLeast (unexceeded Scalar.exceeds entries) p ∧
          (Apart entries → IsLeast (unexceeded Scalar.greater entries) p) := by
  have hd : d < v.rank := by
    rw [← length_dims]
    by_contra hge
    rw [extentAt, List.getD_eq_default _ _ (Nat.not_lt.mp hge)] at hpos
    exact Nat.lt_irrefl 0 hpos
  obtain ⟨w, hw, hpeaks⟩ := h.exists_argmaxAt hpos hordered
  refine ⟨w, (argmax_eq_argmaxAt haxis hd).trans hw, hpeaks.rect, hpeaks.dims, fun i hi => ?_⟩
  rw [hpeaks.dims] at hi
  obtain ⟨entries, p, k, hentries, hfirst, hat⟩ := hpeaks.position i hi
  have hentry : ∀ s ∈ entries, s.IsOrdered := by
    intro s hs
    obtain ⟨q, hq⟩ := List.getElem?_of_mem hs
    exact hordered s (mem_scalars_of_at? ((hentries q).symm.trans hq))
  refine ⟨entries, p, hentries, hat, ?_, fun hapart => ?_⟩
  · exact hfirst.isLeast fun t ht s hs => Scalar.exceeds_eq_place (hentry t ht) (hentry s hs)
  · exact hfirst.isLeast fun t ht s hs =>
      Scalar.greater_eq_place (hentry t ht) (hentry s hs) (hapart t ht s hs)

theorem isOrdered_ofWords {ns : List Int64} : ∀ s ∈ (ofWords ns).scalars, s.IsOrdered := by
  rw [scalars_ofWords, List.forall_mem_map]
  exact fun _ _ => trivial

/-- Of two equal numbers the first wins. -/
theorem Rect.argmax_isLeast_tie :
    let v := ofWords [3, 5, 5]
    v.Rect ∧ (∀ s ∈ v.scalars, s.IsOrdered) ∧ Reduction.position v (-1) = 0 ∧ 0 < v.extentAt 0 ∧
      ∃ w p, argmax v (-1) = .ok w ∧ w.at? [] = some (.int (Int64.ofNat p)) ∧
        IsLeast (unexceeded Scalar.greater [.int 3, .int 5, .int 5]) p := by
  intro v
  have hv : v.Rect := rect_ofWords _
  have haxis : Reduction.position v (-1) = (0 : Nat) := rfl
  obtain ⟨w, hw, -, hdims, hpositions⟩ := hv.argmax_isLeast isOrdered_ofWords haxis (by decide)
  obtain ⟨entries, p, hentries, hat, -, hleast⟩ := hpositions [] (by rw [hdims]; decide)
  have hall : entries = [.int 3, .int 5, .int 5] := by
    refine List.ext_getElem? fun q => (hentries q).trans ?_
    rcases q with _ | _ | _ | q <;> rfl
  subst hall
  refine ⟨hv, isOrdered_ofWords, haxis, by decide, w, p, hw, hat, hleast (apart_of_natAbs_le ?_)⟩
  simp [Scalar.word?]

/-- The operator tells 2^53 + 1 from 2^53, but their doubles are the same. -/
theorem argmax_isLeast_fails :
    ¬ ∀ (v : Value) (axis : Int) (d : Nat), v.Rect → (∀ s ∈ v.scalars, s.IsOrdered) →
      Reduction.position v axis = d → 0 < v.extentAt d →
      ∃ w, argmax v axis = .ok w ∧ w.Rect ∧ w.dims = v.dims.eraseIdx d ∧
        ∀ i ∈ indices w.dims, ∃ (entries : List Scalar) (p : Nat),
          (∀ q, entries[q]? = v.at? (i.insertIdx d q)) ∧ w.at? i = some (.int (Int64.ofNat p)) ∧
            IsLeast (unexceeded Scalar.greater entries) p := by
  intro h
  obtain ⟨w, hw, -, -, hpositions⟩ := h (ofWords [9007199254740992, 9007199254740993]) 0 0
    (rect_ofWords _) isOrdered_ofWords rfl (by decide)
  have hfirst : argmax (ofWords [9007199254740992, 9007199254740993]) 0 = .ok (.scalar (.int 0)) :=
    rfl
  cases hw.symm.trans hfirst
  obtain ⟨entries, p, hentries, hat, ⟨s, hs, hother⟩, -⟩ := hpositions [] (by decide)
  have hall : entries = [.int 9007199254740992, .int 9007199254740993] := by
    refine List.ext_getElem? fun q => (hentries q).trans ?_
    rcases q with _ | _ | q <;> rfl
  subst hall
  rcases p with _ | _ | p
  · cases hs
    cases hother 1 _ Nat.one_ne_zero rfl
  · cases hat
  · cases hs

end Value

end Dataflow
