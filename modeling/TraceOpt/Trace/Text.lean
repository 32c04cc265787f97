import TraceOpt.Trace.Basic

/-!
# The text of a trace

One line per operation, as in `%2 = int_add(i0, 5)` or `guard_true(%2)`: the id is written only
where the operation leaves a value, and no line ends the text.
-/

namespace TraceOpt

/-- The name of a kind in the text of a trace. -/
def Kind.text : Kind → String
  | intAdd => "int_add"
  | intSub => "int_sub"
  | intEq => "int_eq"
  | intLt => "int_lt"
  | intGt => "int_gt"
  | guardTrue => "guard_true"
  | guardFalse => "guard_false"
  | new => "new"
  | setField => "setfield"
  | getField => "getfield"
  | call => "call"
  | finish => "finish"

/-- An id, marked as the name of an operation. -/
def OpId.text (id : OpId) : String := "%" ++ id.toNat.repr

/-- An operand: `i0`, `%0` or the literal itself. -/
def Operand.text : Operand → String
  | input n => "i" ++ n.toNat.repr
  | op id => id.text
  | const n => n.toInt.repr

/-- An operation on one line. -/
def Operation.text (op : Operation) : String :=
  (if op.producesValue then op.id.text ++ " = " else "") ++
    op.kind.text ++ "(" ++ ", ".intercalate (op.args.map Operand.text) ++ ")"

/-- A trace, one operation per line. -/
def Trace.text (t : Trace) : String := "\n".intercalate (t.ops.map Operation.text)

end TraceOpt
