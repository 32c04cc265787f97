import TraceOpt.Trace.Basic

/-!
# Recording a trace

A recorder hands out inputs and operations one after another.  The ids it gives are the places of
the operations in the trace, so as long as a trace has no more operations than there are ids, each
id names one operation, and arguments taken from earlier answers refer backwards.
-/

namespace TraceOpt

/-- An action that extends the trace recorded so far. -/
abbrev Recorder := StateM Trace

namespace Recorder

/-- Declares one more input. -/
def input : Recorder Operand :=
  modifyGet fun t => (.input t.inputs, { t with inputs := t.inputs + 1 })

/-- Records an operation with a given result type. -/
def typed (kind : Kind) (args : List Operand) (type : Option ResultType) : Recorder Operand :=
  modifyGet fun t =>
    let op : Operation := ⟨.ofNat t.ops.length, kind, args, type⟩
    (op.result, { t with ops := t.ops ++ [op] })

/-- Records an operation with the usual result type of its kind. -/
def op (kind : Kind) (args : List Operand) : Recorder Operand := typed kind args kind.defaultType

/-- The trace that a recording leaves behind, beside the recording's own answer. -/
def build {α : Type} (r : Recorder α) : α × Trace := r.run ⟨0, []⟩

end Recorder

end TraceOpt
