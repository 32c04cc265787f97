import TraceOpt.Stage.Basic

/-!
# Putting off allocations

A `new` operation allocates nothing at first: its id is bound to an object that remembers where it
came from.  Writes to the field of such an object are recorded on it.  As soon as an object is an
argument of anything else it is forced: a fresh allocation goes to the rest of the stages, and the
object becomes the result of that allocation.  A write recorded before that is not made up for.
-/

namespace TraceOpt

namespace AllocationSinking

variable [Hashable Operand]

/-- Binds an operation's id to an object not yet allocated. -/
def postpone : Handler := fun _ op => do
  Action.bindTo op.result (.blank op.id)
  Action.count fun t => { t with virtualsCreated := t.virtualsCreated + 1 }

/-- Binds the `new` operation of an object to a value, and likewise the operand by which the
object was found, if it is another one. -/
def bindObject (origin : OpId) (found : Operand) (v : Value) : Action Unit := do
  Action.bindTo (.op origin) v
  if found ≠ .op origin then Action.bindTo found v

/-- Allocates an object, found by an operand, through the rest of the stages. -/
def force (rest : Sink) (found : Operand) (object : Value) (origin : OpId) : Action Unit := do
  let allocation ← Stage.create rest .new [] (some .ref)
  if let some field := object.field? then
    Action.note (.writeDropped object allocation.id field)
  bindObject origin found (.operand allocation.result)
  Action.count fun t => { t with virtualsForced := t.virtualsForced + 1 }

/-- Forces one after another the operands that are objects not yet allocated. -/
def forceAll (rest : Sink) : List Operand → Action Unit
  | [] => pure ()
  | x :: xs => do
    let object ← Action.resolve x
    if let some origin := object.origin? then force rest x object origin
    forceAll rest xs

/-- Forces the arguments of an operation and sends it on. -/
def forceArgs : Handler := fun rest op => do
  forceAll rest op.args
  rest op

/-- Records a field write on an object not yet allocated; any other write is sent on. -/
def absorb : Handler := fun rest op => do
  let receiver ← Action.ofExcept (op.arg 0)
  match (← Action.resolve receiver).origin? with
  | none => forceArgs rest op
  | some origin =>
    let stored ← Action.resolve (← Action.ofExcept (op.arg 1))
    let object := Value.written origin stored
    Action.note (.absorbed op object)
    bindObject origin receiver object
    Action.count fun t => { t with setfieldsAbsorbed := t.setfieldsAbsorbed + 1 }

/-- The name of the stage. -/
def name : String := "virtualize"

/-- The stage that puts off allocations. -/
def stage : Stage :=
  .ofTable name <|
    ((Routes.none.register .new postpone).register .setField absorb).tableOr forceArgs

theorem handle_eq (rest : Sink) (op : Operation) :
    stage.handle rest op =
      match op.kind with
      | .new => postpone rest op
      | .setField => absorb rest op
      | _ => forceArgs rest op := by
  obtain ⟨id, kind, args, type⟩ := op
  cases kind <;> rfl

end AllocationSinking

end TraceOpt
