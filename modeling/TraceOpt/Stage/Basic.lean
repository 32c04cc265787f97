import TraceOpt.Routes
import TraceOpt.Run

/-!
# Stages

A stage takes one operation at a time and settles it or sends it on to the stages after it; what
no stage settles is emitted.  A stage sees the rest of the list only as the place to send
operations to, so a list of stages is read by recursion from its end.
-/

namespace TraceOpt

/-- Where operations are sent. -/
abbrev Sink := Operation → Action Unit

/-- What a stage does with an operation, given the rest of the stages. -/
abbrev Handler := (rest : Sink) → Operation → Action Unit

/-- A named step of an optimization. -/
structure Stage where
  /-- The name in logs and counters. -/
  name : String
  /-- What the stage does. -/
  handle : Handler

namespace Stage

variable [Hashable Operand]

/-- The handler that leaves an operation to the rest. -/
def passOn : Handler := fun rest op => rest op

/-- The stage that treats every kind as a table says. -/
def ofTable (name : String) (table : RouteTable Handler) : Stage :=
  ⟨name, fun rest op => table.handler op.kind rest op⟩

/-- Sends an operation through stages, in order, and emits it at the end. -/
def forward : List Stage → Sink
  | [], op => Action.emit op
  | stage :: rest, op => do
    Action.note (.entered stage.name op)
    Action.count (·.record stage.name)
    stage.handle (forward rest) op

theorem forward_nil (op : Operation) : forward [] op = Action.emit op := rfl

theorem forward_cons_apply (stage : Stage) (rest : List Stage) (op : Operation) (s : Run) :
    forward (stage :: rest) op s =
      stage.handle (forward rest) op
        ((s.note (.entered stage.name op)).count (·.record stage.name)) := rfl

/-- Creates an operation and sends it on. -/
def create (rest : Sink) (kind : Kind) (args : List Operand) (type : Option ResultType) :
    Action Operation := do
  let op ← Action.fresh kind args type
  rest op
  return op

end Stage

end TraceOpt
