import Dataflow.Evaluation.Output

/-!
# Events

What an evaluation reports besides its result: the steps that it takes, and what the breakpoints on
its way observe. Events never influence an evaluation.
-/

namespace Dataflow

/-- How important a report is. -/
inductive Level where
  | trace
  | debug
  | info
  | warn
deriving DecidableEq

/-- A report on a step of an evaluation. -/
inductive Report where
  | entered (kind name : String)
  | reducing (axis : Nat) (how : Reduction)
  | multiplying (a b : Shape) (backend : String)
  | remembered (name : String)
  | deferred (name copy : String)
  | wrote (update : Update) (name : String) (stored : Value)
  | printed (message : String) (shown : Output)
  | stoppedForcing (name : String) (steps : Nat)

inductive Event where
  | report (r : Report)
  /-- A breakpoint on the named node, with the first two operands as far as they are known, and the
  result. -/
  | observed (name : String) (a b : Option Output) (result : Output)

namespace Report

def level : Report → Level
  | .entered .. | .reducing .. | .multiplying .. => .trace
  | .remembered _ | .deferred .. | .wrote .. => .debug
  | .printed .. => .info
  | .stoppedForcing .. => .warn

def text : Report → String
  | .entered kind name => s!"run {kind} '{name}'"
  | .reducing axis how => s!"reducing axis {axis} ({how.label})"
  | .multiplying a b backend => s!"matmul {a.text} @ {b.text} on {backend}"
  | .remembered name => s!"memo hit for '{name}'"
  | .deferred name copy => s!"deferred '{name}' as '{copy}'"
  | .wrote update name stored =>
    s!"{(Control.assign update).tag} wrote '{name}' = {stored.text}"
  | .printed message shown => message ++ shown.text
  | .stoppedForcing name steps => s!"stopped forcing '{name}' after {steps} steps"

end Report

namespace Level

def name : Level → String
  | .trace => "trace"
  | .debug => "debug"
  | .info => "info"
  | .warn => "warn"

end Level

end Dataflow
