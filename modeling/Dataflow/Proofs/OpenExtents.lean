import Dataflow.Shape
import Mathlib.Data.List.Forall2

/-!
# Shapes with open extents

Extents that meet are joined: one is below every extent, an open extent is below every other one,
and of two known extents neither is below the other. So broadcasting is a partial join of shapes, in
which neither the order of the operands nor their grouping matters. It is also monotone in what is
known: when open extents are settled, a pair that was refused stays refused, and the extents that
were inferred stay as they are.
-/

namespace Dataflow.Shape

/-! ## Joining extents -/

/-- One is below every extent, and an open extent is below every other one. -/
def Below (p q : Option Nat) : Prop := p = some 1 ∨ p = q ∨ p = none ∧ q ≠ some 1

theorem Below.trans {p q r : Option Nat} (h : Below p q) (h' : Below q r) : Below p r := by
  grind [Below]

/-- The extents below a common one form a chain. -/
theorem Below.total {p q d : Option Nat} (hp : Below p d) (hq : Below q d) :
    Below p q ∨ Below q p := by
  grind [Below]

/-- The common extent of two axes is that of the two that is above the other. -/
theorem commonExtent?_eq_some {p q d : Option Nat} :
    commonExtent? p q = some d ↔ Below p d ∧ Below q d ∧ (d = p ∨ d = q) := by
  cases p <;> cases q <;> simp only [commonExtent?, Below] <;> grind

theorem commonExtent?_comm (p q : Option Nat) : commonExtent? p q = commonExtent? q p := by
  refine Option.ext fun d => ?_
  simp only [commonExtent?_eq_some]
  tauto

theorem commonExtent?_self (p : Option Nat) : commonExtent? p p = some p :=
  commonExtent?_eq_some.mpr ⟨.inr (.inl rfl), .inr (.inl rfl), .inl rfl⟩

/-- The common extent of three axes does not depend on which two meet first. -/
theorem commonExtent?_bind {p q r d : Option Nat} :
    ((commonExtent? p q).bind (commonExtent? · r)) = some d ↔
      Below p d ∧ Below q d ∧ Below r d ∧ (d = p ∨ d = q ∨ d = r) := by
  simp only [Option.bind_eq_some_iff, commonExtent?_eq_some]
  constructor
  · rintro ⟨e, ⟨hp, hq, he⟩, hed, hr, hd⟩
    exact ⟨hp.trans hed, hq.trans hed, hr, by grind⟩
  · rintro ⟨hp, hq, hr, hd⟩
    rcases hp.total hq with h | h
    · exact ⟨q, ⟨h, .inr (.inl rfl), .inr rfl⟩, hq, hr, by grind [Below]⟩
    · exact ⟨p, ⟨.inr (.inl rfl), h, .inl rfl⟩, hp, hr, by grind [Below]⟩

theorem commonExtent?_rotate (p q r : Option Nat) :
    (commonExtent? p q).bind (commonExtent? · r) =
      (commonExtent? q r).bind (commonExtent? · p) := by
  refine Option.ext fun d => ?_
  simp only [commonExtent?_bind]
  tauto

/-! ## Joining shapes -/

theorem broadcastReversed?_nil (as : List (Option Nat)) : broadcastReversed? as [] = some as := by
  cases as <;> rfl

theorem broadcastReversed?_cons (a b : Option Nat) (as bs : List (Option Nat)) :
    broadcastReversed? (a :: as) (b :: bs) =
      (commonExtent? a b).bind fun d => (broadcastReversed? as bs).map (d :: ·) := by
  rw [broadcastReversed?]
  cases commonExtent? a b <;> cases broadcastReversed? as bs <;> rfl

theorem broadcastReversed?_comm (as bs : List (Option Nat)) :
    broadcastReversed? as bs = broadcastReversed? bs as := by
  induction as generalizing bs with
  | nil => rw [broadcastReversed?_nil, broadcastReversed?]
  | cons a as ih =>
    cases bs with
    | nil => rfl
    | cons b bs => rw [broadcastReversed?_cons, broadcastReversed?_cons, commonExtent?_comm, ih]

theorem broadcastReversed?_self (as : List (Option Nat)) : broadcastReversed? as as = some as := by
  induction as with
  | nil => rfl
  | cons a as ih =>
    rw [broadcastReversed?_cons, commonExtent?_self, ih]
    rfl

/-- The innermost axis and the others are broadcast on their own. -/
theorem broadcastReversed?_bind_cons (a b c : Option Nat) (as bs cs : List (Option Nat)) :
    (broadcastReversed? (a :: as) (b :: bs)).bind (broadcastReversed? · (c :: cs)) =
      ((commonExtent? a b).bind (commonExtent? · c)).bind fun d =>
        ((broadcastReversed? as bs).bind (broadcastReversed? · cs)).map (d :: ·) := by
  rw [broadcastReversed?_cons]
  cases commonExtent? a b <;> cases broadcastReversed? as bs <;> simp [broadcastReversed?_cons]

theorem broadcastReversed?_rotate (as bs cs : List (Option Nat)) :
    (broadcastReversed? as bs).bind (broadcastReversed? · cs) =
      (broadcastReversed? bs cs).bind (broadcastReversed? · as) := by
  induction as generalizing bs cs with
  | nil => simp [broadcastReversed?, broadcastReversed?_nil]
  | cons a as ih =>
    cases bs with
    | nil => simp [broadcastReversed?, broadcastReversed?_comm cs]
    | cons b bs =>
      cases cs with
      | nil =>
        simp only [broadcastReversed?_nil, Option.bind_some, Option.bind_fun_some]
        exact broadcastReversed?_comm (a :: as) (b :: bs)
      | cons c cs =>
        rw [broadcastReversed?_bind_cons, broadcastReversed?_bind_cons, commonExtent?_rotate, ih]

theorem toOption_broadcast (a b : Shape) :
    (a.broadcast b).toOption =
      (broadcastReversed? a.dims.reverse b.dims.reverse).map fun dims => ⟨dims.reverse⟩ := by
  unfold broadcast
  cases broadcastReversed? a.dims.reverse b.dims.reverse <;> rfl

theorem toOption_broadcast_comm (a b : Shape) :
    (a.broadcast b).toOption = (b.broadcast a).toOption := by
  rw [toOption_broadcast, toOption_broadcast, broadcastReversed?_comm]

theorem toOption_bind {ε α β : Type} (x : Except ε α) (f : α → Except ε β) :
    (x >>= f).toOption = x.toOption.bind fun a => (f a).toOption := by
  cases x <;> rfl

theorem toOption_broadcast_bind (a b c : Shape) :
    (a.broadcast b >>= (·.broadcast c)).toOption =
      ((broadcastReversed? a.dims.reverse b.dims.reverse).bind
        (broadcastReversed? · c.dims.reverse)).map fun dims => ⟨dims.reverse⟩ := by
  rw [toOption_bind, toOption_broadcast, Option.bind_map, Option.map_bind]
  simp only [Function.comp_def, toOption_broadcast, List.reverse_reverse]

/-- Broadcasting is a partial join of shapes: commutative, associative and idempotent, with the
shape of a scalar below all others. All refusals count as one outcome. -/
theorem broadcast_join (a b c : Shape) :
    (a.broadcast b).toOption = (b.broadcast a).toOption ∧
      (a.broadcast b >>= fun ab => ab.broadcast c).toOption =
        (b.broadcast c >>= fun bc => a.broadcast bc).toOption ∧
      a.broadcast a = .ok a ∧ a.broadcast scalar = .ok a := by
  refine ⟨toOption_broadcast_comm a b, ?_, ?_, ?_⟩
  · have hlast : (b.broadcast c >>= fun bc => a.broadcast bc).toOption =
        (b.broadcast c >>= fun bc => bc.broadcast a).toOption := by
      simp only [toOption_bind, toOption_broadcast_comm a]
    rw [hlast, toOption_broadcast_bind, toOption_broadcast_bind, broadcastReversed?_rotate]
  · simp [broadcast, broadcastReversed?_self]
  · simp [broadcast, scalar, broadcastReversed?_nil]

/-! ## Settling open extents -/

/-- The extent `q` is `p`, unless `p` is open. -/
def Settles (p q : Option Nat) : Prop := p = none ∨ p = q

theorem Settles.trans {p q r : Option Nat} (h : Settles p q) (h' : Settles q r) : Settles p r := by
  grind [Settles]

/-- An open extent takes over whatever it meets, except one. -/
theorem exists_commonExtent?_none (q : Option Nat) :
    ∃ d, commonExtent? none q = some d ∧ (d = none ∨ d = q ∧ q ≠ some 1) := by
  cases q <;> grind [commonExtent?]

theorem commonExtent?_mono_left {p p' q d' : Option Nat} (hp : Settles p p')
    (h : commonExtent? p' q = some d') : ∃ d, commonExtent? p q = some d ∧ Settles d d' := by
  rcases hp with rfl | rfl
  · obtain ⟨d, hd, hopen | ⟨rfl, hone⟩⟩ := exists_commonExtent?_none q
    · exact ⟨d, hd, .inl hopen⟩
    · obtain ⟨-, hbelow, -⟩ := commonExtent?_eq_some.mp h
      exact ⟨d, hd, by grind [Below, Settles]⟩
  · exact ⟨d', h, .inr rfl⟩

/-- Extents that meet once they are settled met before, and settle what was known of their common
extent. -/
theorem commonExtent?_mono {p p' q q' d' : Option Nat} (hp : Settles p p') (hq : Settles q q')
    (h : commonExtent? p' q' = some d') : ∃ d, commonExtent? p q = some d ∧ Settles d d' := by
  obtain ⟨e, he, hed⟩ := commonExtent?_mono_left hp h
  rw [commonExtent?_comm] at he
  obtain ⟨d, hd, hde⟩ := commonExtent?_mono_left hq he
  exact ⟨d, (commonExtent?_comm p q).trans hd, hde.trans hed⟩

theorem broadcastReversed?_mono {as as' bs bs' ds' : List (Option Nat)}
    (ha : List.Forall₂ Settles as as') (hb : List.Forall₂ Settles bs bs')
    (h : broadcastReversed? as' bs' = some ds') :
    ∃ ds, broadcastReversed? as bs = some ds ∧ List.Forall₂ Settles ds ds' := by
  induction ha generalizing bs bs' ds' with
  | nil =>
    cases h
    exact ⟨bs, rfl, hb⟩
  | @cons a a' as as' hfirst hrest ih =>
    cases hb with
    | nil =>
      cases h
      exact ⟨a :: as, rfl, .cons hfirst hrest⟩
    | @cons b b' bs bs' hfirst' hrest' =>
      rw [broadcastReversed?_cons] at h
      obtain ⟨d', hd', h⟩ := Option.bind_eq_some_iff.mp h
      obtain ⟨es', hes', rfl⟩ := Option.map_eq_some_iff.mp h
      obtain ⟨d, hd, hsettles⟩ := commonExtent?_mono hfirst hfirst' hd'
      obtain ⟨es, hes, hall⟩ := ih hrest' hes'
      exact ⟨d :: es, by rw [broadcastReversed?_cons, hd, hes]; rfl, .cons hsettles hall⟩

/-- Shapes that are broadcast once they are settled were not refused before, and settle the shape
that was inferred. -/
theorem broadcast_mono {a a' b b' c : Shape} (ha : List.Forall₂ Settles a.dims a'.dims)
    (hb : List.Forall₂ Settles b.dims b'.dims) (h : a'.broadcast b' = .ok c) :
    ∃ s, a.broadcast b = .ok s ∧ List.Forall₂ Settles s.dims c.dims := by
  unfold broadcast at h
  split at h
  · rename_i ds' hds'
    cases h
    obtain ⟨ds, hds, hall⟩ := broadcastReversed?_mono (List.forall₂_reverse_iff.mpr ha)
      (List.forall₂_reverse_iff.mpr hb) hds'
    exact ⟨⟨ds.reverse⟩, by rw [broadcast, hds], List.forall₂_reverse_iff.mpr hall⟩
  · cases h

/-- The shape with `extents i` in the place of an extent that is open at axis `i`. -/
def filledIn (s : Shape) (extents : Nat → Nat) : Shape :=
  known (s.dims.mapIdx fun i d => d.getD (extents i))

theorem settles_filledIn (s : Shape) (extents : Nat → Nat) :
    List.Forall₂ Settles s.dims (s.filledIn extents).dims := by
  refine List.forall₂_iff_get.mpr ⟨by simp [filledIn, known], fun i hi hi' => ?_⟩
  cases h : s.dims[i] <;> simp [filledIn, known, Settles, h]

/-- A known extent stays when others are settled. -/
theorem extent?_of_settles {s t : Shape} (h : List.Forall₂ Settles s.dims t.dims) {i d : Nat}
    (hd : s.extent? i = some d) : t.extent? i = some d := by
  unfold extent? at hd ⊢
  have hi : s.dims[i]? = some (some d) := Option.join_eq_some_iff.mp hd
  obtain ⟨hlt, hget⟩ := List.getElem?_eq_some_iff.mp hi
  have hlt' : i < t.dims.length := h.length_eq ▸ hlt
  have hsettles : Settles s.dims[i] t.dims[i] := h.get hlt hlt'
  rcases hget ▸ hsettles with hopen | hknown
  · cases hopen
  · rw [List.getElem?_eq_getElem hlt', ← hknown]
    rfl

/-- The static rule is sound for open extents, whatever they turn out to be: a pair that it refuses
is refused, and the result has the rank and the extents that it infers. -/
theorem broadcast_filledIn (a b : Shape) (f g : Nat → Nat) :
    match a.broadcast b with
    | .error _ => ∃ fault, (a.filledIn f).broadcast (b.filledIn g) = .error fault
    | .ok s => ∀ c, (a.filledIn f).broadcast (b.filledIn g) = .ok c →
        c.rank = s.rank ∧ ∀ i d, s.extent? i = some d → c.extent? i = some d := by
  have hsettled {c : Shape} (hc : (a.filledIn f).broadcast (b.filledIn g) = .ok c) :=
    broadcast_mono (settles_filledIn a f) (settles_filledIn b g) hc
  cases hs : a.broadcast b with
  | error fault =>
    cases hc : (a.filledIn f).broadcast (b.filledIn g) with
    | error fault' => exact ⟨fault', rfl⟩
    | ok c =>
      obtain ⟨s, hok, -⟩ := hsettled hc
      cases hs.symm.trans hok
  | ok s =>
    intro c hc
    obtain ⟨s', hok, hall⟩ := hsettled hc
    cases hs.symm.trans hok
    exact ⟨hall.length_eq.symm, fun i d hd => extent?_of_settles hall hd⟩

end Dataflow.Shape
