import TraceOpt.Stage.ConstantFolding
import TraceOpt.Stage.GuardPropagation
import TraceOpt.Stage.AllocationSinking

/-!
# Optimizing a trace

Optimizing a trace feeds its operations to a list of stages in order, each once; the answer is
the trace of what was emitted, or the first fault.

* `Pass` names the built-in stages and `Level` the usual lists of them.
* `optimize` is one optimization with its log.
-/

namespace TraceOpt

/-! ### Built-in stages -/

/-- A built-in stage. -/
inductive Pass where
  | constantFolding
  | guardPropagation
  | allocationSinking
  deriving DecidableEq

namespace Pass

/-- All built-in stages. -/
def all : List Pass := [constantFolding, guardPropagation, allocationSinking]

/-- The name of the stage. -/
def name : Pass → String
  | constantFolding => ConstantFolding.name
  | guardPropagation => GuardPropagation.name
  | allocationSinking => AllocationSinking.name

/-- The built-in stage of a name. -/
def ofName? (s : String) : Option Pass := all.find? (·.name == s)

/-- The stage itself. -/
def stage [Hashable Operand] : Pass → Stage
  | constantFolding => ConstantFolding.stage
  | guardPropagation => GuardPropagation.stage
  | allocationSinking => AllocationSinking.stage

@[simp] theorem name_stage [Hashable Operand] (p : Pass) : p.stage.name = p.name := by
  cases p <;> rfl

end Pass

/-- How much to optimize. -/
inductive Level where
  /-- Not at all: the trace is copied. -/
  | debug
  /-- With all built-in stages. -/
  | release
  deriving DecidableEq

namespace Level

/-- Both levels. -/
def all : List Level := [debug, release]

/-- The built-in stages of a level, in order. -/
def passes : Level → List Pass
  | debug => []
  | release => Pass.all

/-- The name of a level. -/
def name : Level → String
  | debug => "debug"
  | release => "release"

/-- The level of a name. -/
def ofName? (s : String) : Option Level := all.find? (·.name == s)

end Level

/-! ### Optimizing -/

/-- The outcome of an optimization. -/
structure Report where
  /-- What happened, first to last. -/
  log : Array Event
  /-- The optimized trace and the counters, or the fault that ended the optimization. -/
  result : Except Fault (Trace × Tally)

variable [Hashable Operand]

/-- Feeds operations to stages one after another. -/
def feed (stages : List Stage) : List Operation → Action Unit
  | [] => pure ()
  | op :: ops => do
    Action.count fun t => { t with opsIn := t.opsIn + 1 }
    Stage.forward stages op
    feed stages ops

/-- Optimizes a trace. -/
def optimize (stages : List Stage) (t : Trace) : Report :=
  let log : Array Event := #[.started t.ops.length (stages.map (·.name))]
  match t.nextFreeId? with
  | none => ⟨log, .error .overflow⟩
  | some id =>
    match feed stages t.ops { Run.start id with log } with
    | .error e s => ⟨s.log, .error e⟩
    | .ok _ s =>
      let (ops, tally) := s.finish
      ⟨s.log.push (.finished tally), .ok ({ t with ops }, tally)⟩

/-- Optimizes a trace with built-in stages. -/
def optimizeWith (passes : List Pass) (t : Trace) : Report := optimize (passes.map Pass.stage) t

end TraceOpt
