import TraceOpt.Tally
import TraceOpt.Value

/-!
# The log of an optimization

Every step of an optimization leaves an event.  Events that concern a whole optimization or that
lose information are for debugging it; the others trace single operations.
-/

namespace TraceOpt

/-- How much detail an event belongs to. -/
inductive Detail where
  | debug
  | trace
  deriving DecidableEq

/-- One step of an optimization. -/
inductive Event where
  /-- A trace of some length is about to go through these stages. -/
  | started (operations : Nat) (stages : List String)
  /-- The trace went through, with these counts. -/
  | finished (tally : Tally)
  /-- A stage is handed an operation. -/
  | entered (stage : String) (op : Operation)
  /-- An operation goes to the output. -/
  | emitted (op : Operation)
  /-- From now on an operand is known to be a value. -/
  | bound (x : Operand) (value : Value)
  /-- An operation is replaced by its constant result. -/
  | folded (op : Operation) (n : Int64)
  /-- A guard is dropped because its argument is known. -/
  | elided (op : Operation) (arg : Operand) (n : Int64)
  /-- A field write is recorded on an object not yet allocated. -/
  | absorbed (op : Operation) (object : Value)
  /-- An object is allocated, and the write pending on it is lost. -/
  | writeDropped (object : Value) (allocation : OpId) (field : Value)
  deriving DecidableEq

namespace Event

/-- The detail that an event belongs to. -/
def detail : Event → Detail
  | started _ _ | finished _ | writeDropped _ _ _ => .debug
  | _ => .trace

/-- The wording of an event. -/
def text : Event → String
  | started operations stages =>
    "optimizing " ++ operations.repr ++ " operation(s) through [" ++ ", ".intercalate stages ++ "]"
  | finished tally => "optimized: " ++ tally.summary
  | entered stage op => stage ++ " <- " ++ op.text
  | emitted op => "emit " ++ op.text
  | bound x value => "bind " ++ x.text ++ " -> " ++ value.text
  | folded op n => "fold " ++ op.text ++ " => " ++ n.toInt.repr
  | elided op arg n => "elide " ++ op.text ++ ": " ++ arg.text ++ " is const " ++ n.toInt.repr
  | absorbed op object => "absorb " ++ op.text ++ " into " ++ object.text
  | writeDropped object allocation field =>
    "forcing " ++ object.text ++ " as " ++ allocation.text ++ ": pending field write ("
      ++ field.text ++ ") is not replayed"

/-- An event as a line of the log. -/
def line (e : Event) : String :=
  (match e.detail with
    | .debug => "DEBUG "
    | .trace => "TRACE ") ++ e.text

end Event

end TraceOpt
