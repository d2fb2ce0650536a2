import Dataflow.Evaluation.State
import Dataflow.Proofs.Outcome

/-!
# Regimes

What a part of an evaluation does is said relative to a regime: what holds in every state, and how a
later state comes from an earlier one. The rules below follow the ways in which evaluations are put
together.
-/

namespace Dataflow

namespace Eval

variable {α β : Type} {c : Settings} {s t : State}

@[simp] theorem pure_run (a : α) : (pure a : Eval α) c s = (.ok a, s) := rfl

@[simp] theorem modify_run (f : State → State) : modify f c s = (.ok (), f s) := rfl

@[simp] theorem state_bind_run (f : State → Eval α) : (state >>= f) c s = f s c s := rfl

@[simp] theorem settings_bind_run (f : Settings → Eval α) : (settings >>= f) c s = f c c s := rfl

@[simp] theorem attempt_run (x : Eval α) : x.attempt c s = (.ok (x c s).1, (x c s).2) := rfl

theorem attempt_run_of {x : Eval α} {r : Except Failure α} (h : x c s = (r, t)) :
    x.attempt c s = (.ok r, t) := by
  rw [attempt_run, h]

@[simp] theorem report_run (r : Report) :
    report r c s = (.ok (), { s with events := s.events.push (.report r) }) := rfl

theorem bind_run_ok {x : Eval α} {f : α → Eval β} {a : α} (h : x c s = (.ok a, t)) :
    (x >>= f) c s = f a c t := by
  show Eval.bind x f c s = f a c t
  simp [Eval.bind, h]

theorem bind_run_error {x : Eval α} {f : α → Eval β} {e : Failure} (h : x c s = (.error e, t)) :
    (x >>= f) c s = (.error e, t) := by
  show Eval.bind x f c s = (.error e, t)
  simp [Eval.bind, h]

theorem bind_run_congr {x y : Eval α} (f : α → Eval β) (h : x c s = y c s) :
    (x >>= f) c s = (y >>= f) c s := by
  show Eval.bind x f c s = Eval.bind y f c s
  simp only [Eval.bind, h]

theorem bind_run_eq_ok {x : Eval α} {f : α → Eval β} {b : β} {u : State} :
    (x >>= f) c s = (.ok b, u) ↔ ∃ a t, x c s = (.ok a, t) ∧ f a c t = (.ok b, u) := by
  cases hrun : x c s with
  | mk r t =>
    cases r with
    | ok a => simp [bind_run_ok hrun, and_assoc]
    | error e => simp [bind_run_error hrun]

theorem ofExcept_run (x : Except Failure α) : ofExcept x c s = (x, s) := by
  cases x <;> rfl

theorem node_run (id : NodeId) : node id c s = (s.graph.node id, s) :=
  ofExcept_run _

theorem node_run_some {id : NodeId} {n : Node} (h : s.graph.node? id = some n) :
    node id c s = (.ok n, s) := by
  simp [node_run, Graph.node, h]

theorem node_run_none {id : NodeId} (h : s.graph.node? id = none) :
    node id c s = (.error (.noSuchNode id.index), s) := by
  simp [node_run, Graph.node, h]

end Eval

/-- A post-condition for results; nothing is said of a failure. -/
def OnResult {α : Type} (Q : α → State → Prop) : Except Failure α → State → Prop
  | .ok a, t => Q a t
  | .error _, _ => True

@[simp] theorem onResult_ok {α : Type} {Q : α → State → Prop} {a : α} {t : State} :
    OnResult Q (.ok a) t ↔ Q a t := .rfl

@[simp] theorem onResult_error {α : Type} {Q : α → State → Prop} {e : Failure} {t : State} :
    OnResult Q (.error e) t := trivial

/-- A post-condition for results together with one for failures. -/
def OnOutcome {α : Type} (Q : α → State → Prop) (E : Failure → State → Prop) :
    Except Failure α → State → Prop
  | .ok a, t => Q a t
  | .error e, t => E e t

theorem onResult_eq {α : Type} (Q : α → State → Prop) :
    OnResult Q = OnOutcome Q fun _ _ => True := by
  funext r t
  cases r <;> rfl

structure Regime where
  inv : State → Prop
  step : State → State → Prop
  refl : ∀ s, step s s
  trans : ∀ {s t u}, step s t → step t u → step s u

namespace Regime

/-- Performed from the state `s`, the computation keeps to the regime and ends with an outcome and a
state for which `Q` holds. -/
def Ensures {α : Type} (R : Regime) (c : Settings) (s : State) (x : Eval α)
    (Q : Except Failure α → State → Prop) : Prop :=
  R.inv s → R.inv (x c s).2 ∧ R.step s (x c s).2 ∧ Q (x c s).1 (x c s).2

namespace Ensures

variable {R : Regime} {α β : Type} {c : Settings} {s : State}
variable {P Q : Except Failure α → State → Prop}

theorem of_eq {x y : Eval α} (h : x c s = y c s) (hy : R.Ensures c s y Q) :
    R.Ensures c s x Q := by
  unfold Ensures
  rw [h]
  exact hy

theorem of_inv {x : Eval α} (h : R.inv s → R.Ensures c s x Q) : R.Ensures c s x Q :=
  fun hs => h hs hs

/-- After a change of the state that keeps to the regime. -/
theorem of_moved {t : State} {x y : Eval α} (h : x c s = y c t)
    (hst : R.inv s → R.inv t ∧ R.step s t) (hy : R.Ensures c t y Q) : R.Ensures c s x Q := by
  intro hs
  obtain ⟨ht, hstep⟩ := hst hs
  obtain ⟨hinv, hstep', hQ⟩ := hy ht
  rw [h]
  exact ⟨hinv, R.trans hstep hstep', hQ⟩

/-- What the computation ends with is what it ends with. -/
theorem run {x : Eval α} (hx : R.Ensures c s x Q) :
    R.Ensures c s x fun r t => Q r t ∧ x c s = (r, t) := by
  intro hs
  obtain ⟨hinv, hstep, hQ⟩ := hx hs
  exact ⟨hinv, hstep, hQ, rfl⟩

theorem pure {a : α} (h : R.inv s → Q (.ok a) s) : R.Ensures c s (pure a) Q :=
  fun hs => ⟨hs, R.refl s, h hs⟩

theorem fail {e : Failure} (h : R.inv s → Q (.error e) s) : R.Ensures c s (.fail e) Q :=
  fun hs => ⟨hs, R.refl s, h hs⟩

theorem state {f : State → Eval α} (h : R.Ensures c s (f s) Q) :
    R.Ensures c s (Eval.state >>= f) Q :=
  h

theorem stays {id : NodeId} {f : Bool → Eval α} (h : R.Ensures c s (f (s.stays id)) Q) :
    R.Ensures c s (Eval.stays id >>= f) Q :=
  h

theorem settings {f : Settings → Eval α} (h : R.Ensures c s (f c) Q) :
    R.Ensures c s (Eval.settings >>= f) Q :=
  h

theorem modify {f : State → State} {Q : Except Failure Unit → State → Prop}
    (h : R.inv s → R.inv (f s) ∧ R.step s (f s) ∧ Q (.ok ()) (f s)) :
    R.Ensures c s (.modify f) Q :=
  h

theorem conseq {x : Eval α} (hx : R.Ensures c s x P)
    (h : ∀ r t, R.inv t → R.step s t → P r t → Q r t) : R.Ensures c s x Q := by
  intro hs
  obtain ⟨hinv, hstep, hP⟩ := hx hs
  exact ⟨hinv, hstep, h _ _ hinv hstep hP⟩

/-- What holds in a weaker regime holds as well. -/
theorem and {R' : Regime} {x : Eval α} (hP : R.Ensures c s x P) (hQ : R'.Ensures c s x Q)
    (hinv : R.inv s → R'.inv s) : R.Ensures c s x fun r t => P r t ∧ Q r t := by
  intro hs
  obtain ⟨ht, hst, hP⟩ := hP hs
  obtain ⟨-, -, hQ⟩ := hQ (hinv hs)
  exact ⟨ht, hst, hP, hQ⟩

/-- The rest of a sequence is performed in a state that the regime leads to. -/
theorem bind {x : Eval α} {f : α → Eval β} {Q : Except Failure β → State → Prop}
    (hx : R.Ensures c s x P)
    (hok : ∀ a t, R.inv t → R.step s t → P (.ok a) t → R.Ensures c t (f a) Q)
    (herror : ∀ e t, R.inv t → R.step s t → P (.error e) t → Q (.error e) t) :
    R.Ensures c s (x >>= f) Q := by
  intro hs
  obtain ⟨hinv, hstep, hP⟩ := hx hs
  cases hrun : x c s with
  | mk r t =>
    rw [hrun] at hinv hstep hP
    cases r with
    | ok a =>
      rw [Eval.bind_run_ok hrun]
      obtain ⟨hinv', hstep', hQ⟩ := hok a t hinv hstep hP hinv
      exact ⟨hinv', R.trans hstep hstep', hQ⟩
    | error e =>
      rw [Eval.bind_run_error hrun]
      exact ⟨hinv, hstep, herror e t hinv hstep hP⟩

/-- As `bind`, where a failure of the beginning is one of the whole. -/
theorem bindOutcome {x : Eval α} {f : α → Eval β} {P : α → State → Prop} {Q : β → State → Prop}
    {E : Failure → State → Prop} (hx : R.Ensures c s x (OnOutcome P E))
    (hok : ∀ a t, R.inv t → R.step s t → P a t → R.Ensures c t (f a) (OnOutcome Q E)) :
    R.Ensures c s (x >>= f) (OnOutcome Q E) :=
  hx.bind hok fun _ _ _ _ he => he

/-- As `bind`, where only results matter. -/
theorem bindResult {x : Eval α} {f : α → Eval β} {P : α → State → Prop} {Q : β → State → Prop}
    (hx : R.Ensures c s x (OnResult P))
    (hok : ∀ a t, R.inv t → R.step s t → P a t → R.Ensures c t (f a) (OnResult Q)) :
    R.Ensures c s (x >>= f) (OnResult Q) :=
  hx.bind hok fun _ _ _ _ _ => trivial

/-- An attempt does not fail. -/
theorem attempt {x : Eval α} (hx : R.Ensures c s x P) :
    R.Ensures c s x.attempt fun r t => ∃ outcome, r = .ok outcome ∧ P outcome t := by
  intro hs
  obtain ⟨hinv, hstep, hP⟩ := hx hs
  exact ⟨hinv, hstep, _, rfl, hP⟩

/-- What holds of the result of each item, and lasts, holds of all results. -/
theorem eachOutcome {f : α → Eval β} {P : β → State → Prop} {E : Failure → State → Prop}
    (hlasts : ∀ b t u, R.step t u → P b t → P b u) :
    ∀ (xs : List α) (s : State),
      (∀ x ∈ xs, ∀ t, R.step s t → R.Ensures c t (f x) (OnOutcome P E)) →
      R.Ensures c s (Eval.each f xs) (OnOutcome (fun rs t => ∀ r ∈ rs, P r t) E)
  | [], _, _ => pure fun _ => by simp [OnOutcome]
  | x :: xs, s, hf => by
    refine (hf x List.mem_cons_self s (R.refl s)).bindOutcome fun r t _ hst hr => ?_
    refine (eachOutcome hlasts xs t fun y hy u htu => hf y (List.mem_cons_of_mem x hy) u
      (R.trans hst htu)).bindOutcome fun rs u _ htu hrs => ?_
    refine pure fun _ => ?_
    intro r' hr'
    rcases List.mem_cons.mp hr' with rfl | hr'
    · exact hlasts r' t u htu hr
    · exact hrs r' hr'

theorem each {f : α → Eval β} {P : β → State → Prop}
    (hlasts : ∀ b t u, R.step t u → P b t → P b u) (xs : List α) (s : State)
    (hf : ∀ x ∈ xs, ∀ t, R.step s t → R.Ensures c t (f x) (OnResult P)) :
    R.Ensures c s (Eval.each f xs) (OnResult fun rs t => ∀ r ∈ rs, P r t) := by
  simp only [onResult_eq] at hf ⊢
  exact eachOutcome hlasts xs s hf

theorem of_step {R' : Regime} {x : Eval α} (hx : R.Ensures c s x Q)
    (hinv : ∀ t, R.inv t ↔ R'.inv t) (hstep : ∀ t u, R.step t u → R'.step t u) :
    R'.Ensures c s x Q := by
  intro hs
  obtain ⟨hinv', hstep', hQ⟩ := hx ((hinv s).mpr hs)
  exact ⟨(hinv _).mp hinv', hstep _ _ hstep', hQ⟩

end Ensures

/-- Performed from the state `s`, the computation keeps to the regime up to some state, and `F`
relates that state to the outcome and the last state. -/
def Reaches {α : Type} (R : Regime) (c : Settings) (s : State) (x : Eval α)
    (F : State → Except Failure α → State → Prop) : Prop :=
  R.inv s → ∃ t, R.inv t ∧ R.step s t ∧ F t (x c s).1 (x c s).2

namespace Reaches

variable {R : Regime} {α β : Type} {c : Settings} {s : State}

theorem state {f : State → Eval α} {F : State → Except Failure α → State → Prop}
    (h : R.Reaches c s (f s) F) : R.Reaches c s (Eval.state >>= f) F :=
  h

theorem fail {e : Failure} {F : State → Except Failure α → State → Prop}
    (h : F s (.error e) s) : R.Reaches c s (.fail e) F :=
  fun hs => ⟨s, hs, R.refl s, h⟩

theorem of_ensures {x : Eval α} {P : Except Failure α → State → Prop}
    {F : State → Except Failure α → State → Prop} (hx : R.Ensures c s x P)
    (h : ∀ r t, R.inv t → R.step s t → P r t → F t r t) : R.Reaches c s x F := by
  intro hs
  obtain ⟨hinv, hstep, hP⟩ := hx hs
  exact ⟨_, hinv, hstep, h _ _ hinv hstep hP⟩

theorem bind {x : Eval α} {f : α → Eval β} {P : Except Failure α → State → Prop}
    {F : State → Except Failure β → State → Prop} (hx : R.Ensures c s x P)
    (hok : ∀ a t, R.inv t → R.step s t → P (.ok a) t → R.Reaches c t (f a) F)
    (herror : ∀ e t, R.inv t → R.step s t → P (.error e) t → F t (.error e) t) :
    R.Reaches c s (x >>= f) F := by
  intro hs
  obtain ⟨hinv, hstep, hP⟩ := hx hs
  cases hrun : x c s with
  | mk r t =>
    rw [hrun] at hinv hstep hP
    cases r with
    | ok a =>
      rw [Eval.bind_run_ok hrun]
      obtain ⟨u, hinv', hstep', hF⟩ := hok a t hinv hstep hP hinv
      exact ⟨u, hinv', R.trans hstep hstep', hF⟩
    | error e =>
      rw [Eval.bind_run_error hrun]
      exact ⟨t, hinv, hstep, herror e t hinv hstep hP⟩

end Reaches

end Regime

end Dataflow
