import TraceOpt.Event
import TraceOpt.Fault
import TraceOpt.HashTrie.Map

/-!
# An optimization under way

A `Run` is the state that all stages share: what is known about operands, the output so far, the
next unused id, the tally and the log.  The functions on it say what each step does; an `Action`
puts steps in order, and one that ends in a fault keeps the state it had reached.

* `Run.resolve` is the value of an operand: literals are themselves, and an operand about which
  nothing is known is just that operand.
* `Run.bind` makes an operand resolve to a value.  A value that names another operand is resolved
  first, at the time of binding.
* `Action.emit` puts an operation into the output with every argument replaced by the operand that
  holds its value.

The lemmas named after an action and `apply` say what the action does to a state.

What is known about operands is kept in a hash trie, and any hash function of operands will do.
-/

namespace TraceOpt

/-- What is known about operands. -/
abbrev Bindings := HashTrie Operand Value

/-- The bindings in the order of their operands. -/
def Bindings.listing (b : Bindings) : List (Operand × Value) :=
  b.toList.mergeSort fun x y => x.1.le y.1

/-- The state of an optimization. -/
structure Run where
  /-- What is known about operands. -/
  bindings : Bindings
  /-- The output so far. -/
  output : Array Operation
  /-- The next unused id. -/
  nextId : OpId
  /-- The counters so far. -/
  tally : Tally
  /-- What happened so far. -/
  log : Array Event

namespace Run

/-- The state in which nothing is known and fresh ids start at `nextId`. -/
def start (nextId : OpId) : Run := ⟨.empty, #[], nextId, {}, #[]⟩

variable [Hashable Operand] (s : Run)

/-- The value of an operand: a literal is itself, and an operand that is not bound is just that
operand. -/
def resolve : Operand → Value
  | .const n => .constant n
  | x => s.bindings.findD x (.operand x)

/-- The value that `x` takes when bound to `v`: what another operand named by `v` resolves to. -/
def settle (x : Operand) (v : Value) : Value :=
  match v with
  | .operand y => if y = x then v else s.resolve y
  | _ => v

/-- Adds an event to the log. -/
def note (e : Event) : Run := { s with log := s.log.push e }

/-- Changes the counters. -/
def count (f : Tally → Tally) : Run := { s with tally := f s.tally }

/-- Makes `x` resolve to `v` from now on. -/
protected def bind (x : Operand) (v : Value) : Run :=
  let value := s.settle x v
  { s.note (.bound x value) with bindings := s.bindings.insert x value }

/-- The operand that holds the value of `x` in the output. -/
def place (x : Operand) : Except Fault Operand :=
  match s.resolve x with
  | .constant n => .ok (.const n)
  | .operand y => .ok y
  | .blank origin | .written origin _ => .error (.escapedVirtual origin)

/-- Puts an operation into the output as it is. -/
def push (op : Operation) : Run := { s with output := s.output.push op }

/-- The output and the counters at the end. -/
def finish : List Operation × Tally :=
  (s.output.toList, { s.tally with opsOut := s.output.size })

end Run

/-! ### Actions -/

/-- A step that may end in a fault; the state reached is kept in either case. -/
abbrev Action := EStateM Fault Run

namespace Action

variable [Hashable Operand]

/-- Adds an event to the log. -/
def note (e : Event) : Action Unit := modify (·.note e)

/-- Changes the counters. -/
def count (f : Tally → Tally) : Action Unit := modify (·.count f)

/-- Makes an operand resolve to a value from now on. -/
def bindTo (x : Operand) (v : Value) : Action Unit := modify (·.bind x v)

/-- The value of an operand. -/
def resolve (x : Operand) : Action Value := fun s => .ok (s.resolve x) s

/-- Goes on with a result, or ends in its fault. -/
def ofExcept {α : Type} (r : Except Fault α) : Action α :=
  match r with
  | .ok a => pure a
  | .error e => throw e

/-- Puts an operation into the output, its arguments replaced by the operands that hold their
values. -/
def emit (op : Operation) : Action Unit := fun s =>
  match op.args.mapM s.place with
  | .ok args => .ok () ((s.note (.emitted op)).push { op with args })
  | .error e => .error e s

/-- An operation under the next unused id; the largest id is never given out. -/
def fresh (kind : Kind) (args : List Operand) (type : Option ResultType) : Action Operation :=
  fun s =>
    if s.nextId = OpId.last then .error .overflow s
    else .ok ⟨s.nextId, kind, args, type⟩ { s with nextId := s.nextId + 1 }

/-- Puts a fresh operation into the output as it is. -/
def append (kind : Kind) (args : List Operand) (type : Option ResultType) : Action Operation := do
  let op ← fresh kind args type
  modify (·.push op)
  return op

/-! ### What actions do to the state -/

variable (s : Run)

omit [Hashable Operand] in
@[simp] theorem note_apply (e : Event) : note e s = .ok () (s.note e) := rfl

omit [Hashable Operand] in
@[simp] theorem count_apply (f : Tally → Tally) : count f s = .ok () (s.count f) := rfl

@[simp] theorem bindTo_apply (x : Operand) (v : Value) : bindTo x v s = .ok () (s.bind x v) := rfl

@[simp] theorem resolve_apply (x : Operand) : resolve x s = .ok (s.resolve x) s := rfl

end Action

end TraceOpt
