import TraceOpt.Stage.Basic

/-!
# Constant folding

An integer operation on two known integers is replaced by its result: the result is bound to the
id of the operation, and the operation goes no further.
-/

namespace TraceOpt

namespace ConstantFolding

variable [Hashable Operand]

/-- The result of an operation on values, if it can be computed. -/
def result? (kind : Kind) : List Value → Option Int64
  | [.constant a, .constant b] => kind.eval? a b
  | _ => none

/-- Folds an integer operation if both arguments are known. -/
def fold : Handler := fun rest op => do
  if op.args.length ≠ 2 then throw (.arity op.id op.kind 2 op.args.length)
  let s ← get
  match result? op.kind (op.args.map s.resolve) with
  | some n =>
    Action.note (.folded op n)
    Action.bindTo op.result (.constant n)
    Action.count fun t => { t with folded := t.folded + 1 }
  | none => rest op

/-- The name of the stage. -/
def name : String := "constant_fold"

/-- The folding stage. -/
def stage : Stage :=
  .ofTable name <|
    (Routes.none.registerAll Kind.arithmetic fold).tableOr Stage.passOn

theorem handle_eq (rest : Sink) (op : Operation) :
    stage.handle rest op = if op.kind ∈ Kind.arithmetic then fold rest op else rest op := by
  obtain ⟨id, kind, args, type⟩ := op
  cases kind <;> rfl

end ConstantFolding

end TraceOpt
