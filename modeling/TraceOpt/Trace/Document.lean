import TraceOpt.Json.Reader
import TraceOpt.Json.Writer
import TraceOpt.Trace.Basic

/-!
# Traces as JSON

A trace is written as an object with its inputs and operations, an operation as an object with id,
kind, arguments and type.  A reader accepts more: members in any order and beside unknown ones,
`inputs`, `args` and `type` left out, the fields of a trace or an operation in an array, and a
kind or type as an object with one member.  `Trace.parse?` reads a text, `Trace.toJson` gives the
value to write.
-/

namespace TraceOpt

/-! ### Names -/

/-- The name of a kind in JSON. -/
def Kind.tag : Kind → String
  | intAdd => "int_add"
  | intSub => "int_sub"
  | intEq => "int_eq"
  | intLt => "int_lt"
  | intGt => "int_gt"
  | guardTrue => "guard_true"
  | guardFalse => "guard_false"
  | new => "new"
  | setField => "set_field"
  | getField => "get_field"
  | call => "call"
  | finish => "finish"

/-- The kind of a name. -/
def Kind.ofTag? (s : String) : Option Kind := Kind.all.find? (·.tag == s)

namespace ResultType

/-- All result types. -/
def all : List ResultType := [int, ref, void]

/-- The name of a result type in JSON. -/
def tag : ResultType → String
  | int => "int"
  | ref => "ref"
  | void => "void"

/-- The result type of a name. -/
def ofTag? (s : String) : Option ResultType := all.find? (·.tag == s)

/-- A result type, or null for none. -/
def ofJson? : Json → Option (Option ResultType)
  | .null => some none
  | j => (j.variant?.bind ofTag?).map some

/-- The name of a result type, or null. -/
def toJson : Option ResultType → Json
  | some type => .string (some type.tag)
  | none => .null

end ResultType

/-! ### Operands -/

namespace Operand

/-- An object with one member that says what kind of operand it is. -/
def ofJson? : Json → Option Operand
  | .object [(some "input", j)] => j.word?.map input
  | .object [(some "op", j)] => j.word?.map op
  | .object [(some "const", j)] => j.int64?.map const
  | _ => none

/-- The object with one member for an operand. -/
def toJson : Operand → Json
  | input n => .object [(some "input", .integer n.toNat)]
  | op id => .object [(some "op", .integer id.toNat)]
  | const n => .object [(some "const", .integer n.toInt)]

end Operand

/-! ### Operations -/

namespace Operation

/-- An operation from the values of its fields, of which the last two may be missing. -/
def ofFields? (id kind : Json) (args type : Option Json) : Option Operation := do
  let id ← id.word?
  let kind ← kind.variant?.bind Kind.ofTag?
  let args ← ((args.getD (.array [])).elements?).bind (·.mapM Operand.ofJson?)
  let type ← ResultType.ofJson? (type.getD .null)
  return ⟨id, kind, args, type⟩

/-- An operation from an object or an array of fields. -/
def ofJson? : Json → Option Operation
  | .array [id, kind] => ofFields? id kind none none
  | .array [id, kind, args] => ofFields? id kind (some args) none
  | .array [id, kind, args, type] => ofFields? id kind (some args) (some type)
  | .object members => do
    match ← Json.fields? ["id", "kind", "args", "type"] members with
    | [some id, some kind, args, type] => ofFields? id kind args type
    | _ => none
  | _ => none

/-- The object for an operation. -/
def toJson (op : Operation) : Json :=
  .object
    [ (some "id", .integer op.id.toNat),
      (some "kind", .string (some op.kind.tag)),
      (some "args", .array (op.args.map Operand.toJson)),
      (some "type", ResultType.toJson op.type) ]

end Operation

/-! ### Traces -/

namespace Trace

/-- A trace from the values of its fields, of which the first may be missing. -/
def ofFields? (inputs : Option Json) (ops : Json) : Option Trace := do
  let inputs ← (inputs.getD (.integer 0)).word?
  let ops ← ops.elements?.bind (·.mapM Operation.ofJson?)
  return ⟨inputs, ops⟩

/-- A trace from an object or an array of fields. -/
def ofJson? : Json → Option Trace
  | .array [inputs, ops] => ofFields? (some inputs) ops
  | .object members => do
    match ← Json.fields? ["inputs", "ops"] members with
    | [inputs, some ops] => ofFields? inputs ops
    | _ => none
  | _ => none

/-- The object for a trace. -/
def toJson (t : Trace) : Json :=
  .object
    [ (some "inputs", .integer t.inputs.toNat),
      (some "ops", .array (t.ops.map Operation.toJson)) ]

/-- The trace that a JSON text describes. -/
def parse? (s : String) : Option Trace := (Json.parse? s).bind ofJson?

end Trace

end TraceOpt
