import Dataflow.Graph.Expression

/-!
# Outcomes

Outcomes are results or failures. Two outcomes may be the same up to the nodes around a failure.
-/

namespace Except

variable {ε α β : Type}

theorem map_eq_ok {f : α → β} {x : Except ε α} {b : β} :
    f <$> x = .ok b ↔ ∃ a, x = .ok a ∧ f a = b := by
  cases x <;> simp [Functor.map, Except.map]

theorem map_eq_error {f : α → β} {x : Except ε α} {e : ε} :
    f <$> x = .error e ↔ x = .error e := by
  cases x <;> simp [Functor.map, Except.map]

theorem bind_eq_ok {x : Except ε α} {f : α → Except ε β} {b : β} :
    x >>= f = .ok b ↔ ∃ a, x = .ok a ∧ f a = .ok b := by
  cases x <;> simp [bind, Except.bind]

theorem mapM_congr {f f' : α → Except ε β} {xs : List α} (h : ∀ x ∈ xs, f x = f' x) :
    xs.mapM f = xs.mapM f' := by
  induction xs with
  | nil => rfl
  | cons x xs ih =>
    rw [List.mapM_cons, List.mapM_cons, h x List.mem_cons_self,
      ih fun y hy => h y (List.mem_cons_of_mem x hy)]

theorem exists_of_mem_mapM {f : α → Except ε β} {xs : List α} {ys : List β}
    (h : xs.mapM f = .ok ys) {y : β} (hy : y ∈ ys) : ∃ x ∈ xs, f x = .ok y := by
  induction xs generalizing ys with
  | nil =>
    cases h
    cases hy
  | cons x xs ih =>
    rw [List.mapM_cons] at h
    obtain ⟨z, hz, h⟩ := bind_eq_ok.mp h
    obtain ⟨zs, hzs, h⟩ := bind_eq_ok.mp h
    cases h
    rcases List.mem_cons.mp hy with rfl | hy
    · exact ⟨x, List.mem_cons_self, hz⟩
    · obtain ⟨x', hx', hfx⟩ := ih hzs hy
      exact ⟨x', List.mem_cons_of_mem x hx', hfx⟩

theorem length_of_mapM {f : α → Except ε β} {xs : List α} {ys : List β}
    (h : xs.mapM f = .ok ys) : ys.length = xs.length := by
  induction xs generalizing ys with
  | nil =>
    cases h
    rfl
  | cons x xs ih =>
    rw [List.mapM_cons] at h
    obtain ⟨y, _, h⟩ := bind_eq_ok.mp h
    obtain ⟨ys', hys, h⟩ := bind_eq_ok.mp h
    cases h
    rw [List.length_cons, List.length_cons, ih hys]

theorem getElem_of_mapM {f : α → Except ε β} {xs : List α} {ys : List β}
    (h : xs.mapM f = .ok ys) {j : Nat} (hj : j < xs.length) :
    ∃ hj' : j < ys.length, f xs[j] = .ok ys[j] := by
  induction xs generalizing ys j with
  | nil => cases hj
  | cons x xs ih =>
    rw [List.mapM_cons] at h
    obtain ⟨y, hy, h⟩ := bind_eq_ok.mp h
    obtain ⟨ys', hys, h⟩ := bind_eq_ok.mp h
    cases h
    cases j with
    | zero => exact ⟨Nat.zero_lt_succ _, hy⟩
    | succ j =>
      obtain ⟨hj', hf⟩ := ih hys (Nat.lt_of_succ_lt_succ hj)
      exact ⟨Nat.succ_lt_succ hj', hf⟩

/-- The first item that fails is the one that the walk through a list stops at. -/
theorem exists_first_of_mapM {f : α → Except ε β} {xs : List α} {e : ε}
    (h : xs.mapM f = .error e) :
    ∃ before x after, xs = before ++ x :: after ∧ (∀ y ∈ before, ∃ z, f y = .ok z) ∧
      f x = .error e := by
  induction xs with
  | nil => cases h
  | cons x xs ih =>
    rw [List.mapM_cons] at h
    cases hx : f x with
    | error e' =>
      rw [hx] at h
      cases h
      exact ⟨[], x, xs, rfl, by simp, hx⟩
    | ok z =>
      rw [hx] at h
      cases hxs : xs.mapM f with
      | ok zs =>
        rw [hxs] at h
        cases h
      | error e' =>
        rw [hxs] at h
        cases h
        obtain ⟨before, y, after, rfl, hbefore, hy⟩ := ih hxs
        refine ⟨x :: before, y, after, rfl, ?_, hy⟩
        exact List.forall_mem_cons.mpr ⟨⟨z, hx⟩, hbefore⟩

/-! ## Errors of one kind -/

/-- If the computation ends with an error, then with one that has the property `P`. -/
structure FailsWith (P : ε → Prop) (x : Except ε α) : Prop where
  error : ∀ e, x = .error e → P e

namespace FailsWith

variable {P Q : ε → Prop}

theorem ok (a : α) : FailsWith P (.ok a : Except ε α) where
  error _ h := by cases h

theorem fail {e : ε} (h : P e) : FailsWith P (.error e : Except ε α) where
  error _ h' := by
    cases h'
    exact h

theorem bind {x : Except ε α} {f : α → Except ε β} (hx : FailsWith P x)
    (hf : ∀ a, FailsWith P (f a)) : FailsWith P (x >>= f) := by
  cases x with
  | ok a => exact hf a
  | error e => exact .fail (hx.error e rfl)

/-- Nothing is done after an error. -/
theorem abort {e : ε} {f : β → Except ε α} (h : P e) : FailsWith P (throw e >>= f) where
  error _ h' := by
    cases h'
    exact h

theorem map {x : Except ε α} (f : α → β) (hx : FailsWith P x) : FailsWith P (f <$> x) := by
  cases x with
  | ok a => exact .ok (f a)
  | error e => exact .fail (hx.error e rfl)

theorem ite {p : Prop} [Decidable p] {x y : Except ε α} (hx : FailsWith P x)
    (hy : FailsWith P y) : FailsWith P (if p then x else y) := by
  split
  · exact hx
  · exact hy

theorem mapM {f : α → Except ε β} {xs : List α} (hf : ∀ a ∈ xs, FailsWith P (f a)) :
    FailsWith P (xs.mapM f) := by
  induction xs with
  | nil => exact .ok []
  | cons x xs ih =>
    rw [List.mapM_cons]
    exact (hf x List.mem_cons_self).bind fun _ =>
      (ih fun a ha => hf a (List.mem_cons_of_mem x ha)).bind fun _ => .ok _

theorem foldlM {f : β → α → Except ε β} (hf : ∀ b a, FailsWith P (f b a)) (xs : List α) (b : β) :
    FailsWith P (xs.foldlM f b) := by
  induction xs generalizing b with
  | nil => exact .ok b
  | cons x xs ih =>
    rw [List.foldlM_cons]
    exact (hf b x).bind ih

end FailsWith

end Except

namespace Dataflow

theorem Failure.rootCause_of_isWrapped {e : Failure} (h : e.isWrapped = false) :
    e.rootCause = e := by
  cases e with
  | evaluation => cases h
  | _ => rfl

/-- The failure of the operation `id`, with the context of the node around it. -/
def Graph.wrap (g : Graph) (id : NodeId) (e : Failure) : Failure :=
  if e.isWrapped then e
  else
    match g.node? id with
    | some node => .evaluation node.name (g.expression id) node.source e
    | none => e

theorem Graph.wrap_of_isWrapped (g : Graph) (id : NodeId) {e : Failure} (h : e.isWrapped = true) :
    g.wrap id e = e := by
  simp [wrap, h]

theorem Graph.wrap_of_node? {g : Graph} {id : NodeId} {node : Node} {e : Failure}
    (h : e.isWrapped = false) (hnode : g.node? id = some node) :
    g.wrap id e = .evaluation node.name (g.expression id) node.source e := by
  simp [wrap, h, hnode]

theorem Graph.rootCause_wrap (g : Graph) (id : NodeId) (e : Failure) :
    (g.wrap id e).rootCause = e.rootCause := by
  unfold wrap
  split
  · rfl
  · split <;> rfl

/-- The outcome without the nodes around a failure. -/
def rooted {α : Type} (x : Except Failure α) : Except Failure α := x.mapError Failure.rootCause

section Rooted

variable {α β : Type} {x y : Except Failure α}

theorem rooted_ok (a : α) : rooted (.ok a) = .ok a := rfl

theorem rooted_error (e : Failure) :
    rooted (.error e : Except Failure α) = .error e.rootCause := rfl

theorem rooted_eq_ok {a : α} : rooted x = .ok a ↔ x = .ok a := by
  cases x <;> simp [rooted_ok, rooted_error]

theorem rooted_wrap (g : Graph) (id : NodeId) : rooted (x.mapError (g.wrap id)) = rooted x := by
  cases x with
  | ok a => rfl
  | error e => exact congrArg Except.error (g.rootCause_wrap id e)

theorem rooted_bind {f f' : α → Except Failure β} (hx : rooted x = rooted y)
    (hf : ∀ a, x = .ok a → rooted (f a) = rooted (f' a)) :
    rooted (x >>= f) = rooted (y >>= f') := by
  cases x with
  | ok a =>
    cases rooted_eq_ok.mp hx.symm
    exact hf a rfl
  | error e =>
    cases y with
    | ok b => cases hx
    | error e' => simpa [bind, Except.bind, rooted_error] using hx

theorem rooted_map {f : α → β} (hx : rooted x = rooted y) :
    rooted (f <$> x) = rooted (f <$> y) := by
  cases x <;> cases y <;> simp_all [Functor.map, Except.map, rooted_ok, rooted_error]

/-- The two outcomes give the same results, and fail for the same reasons. -/
theorem rooted_eq_iff : rooted x = rooted y ↔
    (∀ a, x = .ok a ↔ y = .ok a) ∧
      ∀ e, x = .error e → ∃ e', y = .error e' ∧ e'.rootCause = e.rootCause := by
  constructor
  · intro h
    refine ⟨fun a => by rw [← rooted_eq_ok, h, rooted_eq_ok], ?_⟩
    rintro e rfl
    cases y with
    | ok b => cases h
    | error e' => exact ⟨e', rfl, by simpa [rooted_error] using h.symm⟩
  · rintro ⟨hok, herror⟩
    cases x with
    | ok a => rw [(hok a).mp rfl]
    | error e =>
      obtain ⟨e', rfl, he⟩ := herror e rfl
      rw [rooted_error, rooted_error, he]

end Rooted

end Dataflow
