import Dataflow.Proofs.Elementwise

/-!
# The calls of a broadcast

Broadcasting two values and combining one with a constant call each other and themselves. Here every
such call is counted and every item is looked up at its position, where a call nested too deeply and
a position beyond the end of an array stop the walk. Whatever the operands, ragged ones included,
the calls are finitely many, and no position is beyond the end.
-/

namespace Dataflow.Value

/-! ## Counted computations -/

/-- Why a walk stops without an outcome. -/
inductive Halt where
  /-- A call is nested more deeply than is allowed. -/
  | depth
  /-- An item is looked up beyond the end of an array. -/
  | outside
deriving DecidableEq

/-- A computation that counts calls. Unless it stops, its outcome is a result or a fault. -/
abbrev Counted := ExceptT Fault (StateT Nat (Except Halt))

namespace Counted

variable {α β γ : Type}

def halt (h : Halt) : Counted α := fun _ => .error h

def conclude (r : Except Fault α) : Counted α := fun calls => .ok (r, calls)

/-- Counts a call and goes on with it. -/
def counting (g : Counted α) : Counted α := fun calls => g (calls + 1)

def lookUp (xs : List Value) (i : Nat) : Counted Value :=
  match xs[i]? with
  | some x => pure x
  | none => halt .outside

theorem bind_of_ok {g : Counted α} {calls calls' : Nat} {a : α}
    (hg : g calls = .ok (.ok a, calls')) (h : α → Counted β) : (g >>= h) calls = h a calls' := by
  simp [bind, ExceptT.bind, ExceptT.mk, StateT.bind, hg, Except.bind, ExceptT.bindCont]

theorem bind_of_fault {g : Counted α} {calls calls' : Nat} {e : Fault}
    (hg : g calls = .ok (.error e, calls')) (h : α → Counted β) :
    (g >>= h) calls = .ok (.error e, calls') := by
  simp [bind, ExceptT.bind, ExceptT.mk, StateT.bind, hg, Except.bind]
  rfl

theorem bind_of_halt {g : Counted α} {calls : Nat} {h : Halt} (hg : g calls = .error h)
    (k : α → Counted β) : (g >>= k) calls = .error h := by
  simp [bind, ExceptT.bind, ExceptT.mk, StateT.bind, hg, Except.bind]

/-- However deeply calls may be nested, the computation has the outcome `r` after `n` calls, or
stops at a call that is too deep. It does not stop when `n` calls may be nested. -/
structure Ends (g : Nat → Counted α) (r : Except Fault α) (n : Nat) : Prop where
  outcome : ∀ depth calls, g depth calls = .ok (r, calls + n) ∨ g depth calls = .error .depth
  enough : ∀ depth calls, n ≤ depth → g depth calls = .ok (r, calls + n)

variable {g : Nat → Counted α} {h : Nat → α → Counted β} {a : α} {n m : Nat}

theorem Ends.bind {r : Except Fault β} (hg : Ends g (.ok a) n)
    (hh : Ends (fun depth => h depth a) r m) :
    Ends (fun depth => g depth >>= h depth) r (n + m) where
  outcome depth calls := by
    rcases hg.outcome depth calls with hok | hhalt
    · rw [bind_of_ok hok, ← Nat.add_assoc]
      exact hh.outcome depth _
    · exact .inr (bind_of_halt hhalt _)
  enough depth calls hle := by
    rw [bind_of_ok (hg.enough depth calls (by omega)), ← Nat.add_assoc]
    exact hh.enough depth _ (by omega)

/-- Nothing is called after a fault. -/
theorem Ends.abort {e : Fault} (hg : Ends g (.error e) n) :
    Ends (fun depth => g depth >>= h depth) (.error e) n where
  outcome depth calls := by
    rcases hg.outcome depth calls with hok | hhalt
    · exact .inl (bind_of_fault hok _)
    · exact .inr (bind_of_halt hhalt _)
  enough depth calls hle := bind_of_fault (hg.enough depth calls hle) _

/-- The computation ends with the outcome `r` after some number of calls. -/
def Settles (g : Nat → Counted α) (r : Except Fault α) : Prop := ∃ n, Ends g r n

theorem settles_conclude (r : Except Fault α) : Settles (fun _ => conclude r) r :=
  ⟨0, fun _ _ => .inl rfl, fun _ _ _ => rfl⟩

theorem settles_pure (a : α) : Settles (fun _ => pure a) (.ok a) := settles_conclude (.ok a)

theorem Settles.bind {r : Except Fault α} {q : α → Except Fault β} (hg : Settles g r)
    (hh : ∀ a, Settles (fun depth => h depth a) (q a)) :
    Settles (fun depth => g depth >>= h depth) (r >>= q) := by
  obtain ⟨n, hn⟩ := hg
  cases r with
  | ok a =>
    obtain ⟨m, hm⟩ := hh a
    exact ⟨n + m, hn.bind hm⟩
  | error e => exact ⟨n, hn.abort⟩

theorem Settles.mapM {f : Nat → γ → Counted α} {q : γ → Except Fault α} {cs : List γ}
    (hf : ∀ c ∈ cs, Settles (fun depth => f depth c) (q c)) :
    Settles (fun depth => cs.mapM (f depth)) (cs.mapM q) := by
  induction cs with
  | nil => exact settles_pure []
  | cons c cs ih =>
    simp only [List.mapM_cons]
    refine (hf c List.mem_cons_self).bind fun a => ?_
    exact (ih fun d hd => hf d (List.mem_cons_of_mem c hd)).bind fun as => settles_pure _

end Counted

/-! ## The calls -/

open Counted

/-- A call: two values are broadcast, or the scalars of one are combined with a constant, on the
left of which they stand unless `switch` is set. -/
inductive Call where
  | operands (a b : Value)
  | constant (vector fixed : Value) (switch : Bool)

variable (f : Scalar → Scalar → Except Fault Value)

/-- What a call does, with further calls by `call`. -/
def Call.proceed (call : Call → Counted Value) : Call → Counted Value
  | .operands (.scalar s) (.scalar t) => conclude (f s t)
  | .operands (.array xs) (.scalar t) => call (.constant (.array xs) (.scalar t) false)
  | .operands (.scalar s) (.array ys) => call (.constant (.array ys) (.scalar s) true)
  | .operands (.array xs) (.array ys) =>
    if (array xs).rank < (array ys).rank then
      call (.operands (.array (List.replicate ys.length (.array xs))) (.array ys))
    else if (array ys).rank < (array xs).rank then
      call (.operands (.array xs) (.array (List.replicate xs.length (.array ys))))
    else
      match commonExtent? xs.length ys.length with
      | none => conclude (.error (.incompatibleShapes (array xs).dims (array ys).dims))
      | some n => do
        let items ← (List.range n).mapM fun i => do
          let x ← lookUp xs (if xs.length = 1 then 0 else i)
          let y ← lookUp ys (if ys.length = 1 then 0 else i)
          call (.operands x y)
        return .array items
  | .constant vector (.array ys) switch =>
    call (if switch then .operands (.array ys) vector else .operands vector (.array ys))
  | .constant vector (.scalar s) switch =>
    conclude (vector.traverse fun t => if switch then f s t else f t s)

/-- The call, where calls may be nested up to `depth`. -/
def Call.run : (depth : Nat) → Call → Counted Value
  | 0, _ => halt .depth
  | depth + 1, c => counting (c.proceed f (run depth))

/-- What the call gives in the end. -/
def Call.outcome : Call → Except Fault Value
  | .operands a b => broadcast f a b
  | .constant vector fixed switch => broadcastConstant f vector fixed switch

variable {f}

theorem Call.settles {c : Call} {r : Except Fault Value}
    (h : Settles (fun depth => c.proceed f (Call.run f depth)) r) :
    Settles (fun depth => c.run f depth) r := by
  obtain ⟨n, hn⟩ := h
  refine ⟨n + 1, fun depth calls => ?_, fun depth calls hle => ?_⟩
  · cases depth with
    | zero => exact .inr rfl
    | succ depth =>
      rw [Call.run, counting, Nat.add_comm n, ← Nat.add_assoc]
      exact hn.outcome depth (calls + 1)
  · cases depth with
    | zero => omega
    | succ depth =>
      rw [Call.run, counting, Nat.add_comm n, ← Nat.add_assoc]
      exact hn.enough depth (calls + 1) (by omega)

theorem lookUp_itemAt {xs : List Value} {n i : Nat} (hn : xs.length = n ∨ xs.length = 1)
    (hi : i < n) :
    lookUp xs (if xs.length = 1 then 0 else i) = (pure (itemAt xs i) : Counted Value) := by
  have hlt : (if xs.length = 1 then 0 else i) < xs.length := by split <;> omega
  simp [lookUp, itemAt, List.getElem?_eq_getElem hlt]

theorem settles_constant (vector : Value) (s : Scalar) (switch : Bool) :
    Settles (fun depth => (Call.constant vector (.scalar s) switch).run f depth)
      (broadcastConstant f vector (.scalar s) switch) := by
  refine Call.settles ?_
  have hconstant : broadcastConstant f vector (.scalar s) switch =
      vector.traverse fun t => if switch then f s t else f t s := by
    cases switch <;> cases vector <;> simp [broadcastConstant, broadcast, traverse]
  rw [hconstant]
  exact settles_conclude _

theorem settles_operands (a b : Value) :
    Settles (fun depth => (Call.operands a b).run f depth) (broadcast f a b) := by
  -- The measure behind this induction does not count the repetitions that raised an operand.
  induction a, b using Pair.induction with
  | scalars s t =>
    rw [broadcast]
    exact Call.settles (settles_conclude _)
  | scalarRight xs t => exact Call.settles (settles_constant (.array xs) t false)
  | scalarLeft s ys => exact Call.settles (settles_constant (.array ys) s true)
  | repeatLeft xs ys lower ih =>
    rw [broadcast_repeatLeft lower]
    refine Call.settles ?_
    simpa only [Call.proceed, if_pos lower] using ih
  | repeatRight xs ys lower ih =>
    rw [broadcast_repeatRight lower]
    refine Call.settles ?_
    simpa only [Call.proceed, if_neg (Nat.lt_asymm lower), if_pos lower] using ih
  | items xs ys equal ih =>
    rw [broadcast_items equal]
    refine Call.settles ?_
    simp only [Call.proceed, equal, Nat.lt_irrefl, if_false]
    cases hn : commonExtent? xs.length ys.length with
    | none => exact settles_conclude _
    | some n =>
      obtain ⟨hxs, hys⟩ := length_of_commonExtent? hn
      -- An operand of length one is looked up at 0 only, the other one below its own length.
      refine (Settles.mapM fun i hi => ?_).bind fun items => settles_pure _
      have hi := List.mem_range.mp hi
      simp only [lookUp_itemAt hxs hi, lookUp_itemAt hys hi, pure_bind]
      exact ih _ (itemAt_mem hxs hi) _ (itemAt_mem hys hi)

/-- However ragged the operands are, a call leads to finitely many calls, `n` of them, and has the
outcome of the broadcast once `n` may be nested. Where fewer may be nested, the only other way to
stop is at a call that is nested too deeply, and never at a position beyond the end of an array. -/
theorem Call.calls_end (f : Scalar → Scalar → Except Fault Value) (c : Call) :
    ∃ n, ∀ depth, (n ≤ depth → c.run f depth 0 = .ok (c.outcome f, n)) ∧
      (c.run f depth 0 = .ok (c.outcome f, n) ∨ c.run f depth 0 = .error .depth) := by
  have hsettles : Settles (fun depth => c.run f depth) (c.outcome f) := by
    cases c with
    | operands a b => exact settles_operands a b
    | constant vector fixed switch =>
      cases fixed with
      | scalar s => exact settles_constant vector s switch
      | array ys =>
        refine Call.settles ?_
        cases switch with
        | false => exact settles_operands vector (.array ys)
        | true => exact settles_operands (.array ys) vector
  obtain ⟨n, hn⟩ := hsettles
  refine ⟨n, fun depth => ⟨fun hle => ?_, ?_⟩⟩
  · simpa using hn.enough depth 0 hle
  · simpa using hn.outcome depth 0

/-- Of two ragged values first the left one is repeated, and further inside the right one. -/
example :
    let a : Value := .array [.array [.scalar (.int 1)], .array [.array [.scalar (.int 2)]]]
    let b : Value := .array [.array [.array [.scalar (.int 3)]], .scalar (.int 4)]
    let paired := fun s t => Except.ok (.array [.scalar s, .scalar t])
    (Call.operands a b).run paired 6 0 = .error .depth ∧
      ((Call.operands a b).run paired 11 0).map Prod.snd = .ok 11 :=
  ⟨rfl, rfl⟩

end Dataflow.Value
