import TraceOpt.Stage.Basic

/-!
# Guard propagation

A guard on a known integer is settled at once: it is dropped if it passes, and is a fault if it
cannot.  A guard that stays tells all later operations what its argument is.
-/

namespace TraceOpt

namespace GuardPropagation

variable [Hashable Operand]

/-- Settles a guard on a known integer, and learns from any other. -/
def propagate : Handler := fun rest op => do
  let arg ← Action.ofExcept (op.arg 0)
  match ← Action.resolve arg with
  | .constant n =>
    if decide (n ≠ 0) ≠ op.kind.passes then throw (.guardContradiction op.id op.kind n)
    Action.note (.elided op arg n)
    Action.count fun t => { t with guardsElided := t.guardsElided + 1 }
  | _ =>
    rest op
    Action.bindTo arg (.constant (Kind.ofTruth op.kind.passes))
    Action.count fun t => { t with guardsKept := t.guardsKept + 1 }

/-- The name of the stage. -/
def name : String := "guard_propagation"

/-- The guard stage. -/
def stage : Stage :=
  .ofTable name <|
    (Routes.none.registerAll Kind.guards propagate).tableOr Stage.passOn

theorem handle_eq (rest : Sink) (op : Operation) :
    stage.handle rest op = if op.kind ∈ Kind.guards then propagate rest op else rest op := by
  obtain ⟨id, kind, args, type⟩ := op
  cases kind <;> rfl

end GuardPropagation

end TraceOpt
