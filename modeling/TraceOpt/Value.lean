import TraceOpt.Trace.Text

/-!
# What is known about an operand

An operand is known to be an integer, or to be the same as another operand, or to be an object
whose allocation has been put off.  Such an object remembers the `new` operation it stands for
and the value that was written to its field last.
-/

namespace TraceOpt

/-- What is known about an operand. -/
inductive Value where
  /-- An integer. -/
  | constant (n : Int64)
  /-- Whatever this operand holds when the trace runs. -/
  | operand (x : Operand)
  /-- An object not yet allocated, without a field write. -/
  | blank (origin : OpId)
  /-- An object not yet allocated, with the value written to its field. -/
  | written (origin : OpId) (field : Value)
  deriving DecidableEq

namespace Value

/-- Whether the value is an integer. -/
def isConstant : Value → Bool
  | constant _ => true
  | _ => false

/-- The `new` operation of an object that is not yet allocated. -/
def origin? : Value → Option OpId
  | blank origin | written origin _ => some origin
  | _ => none

/-- Whether the value is an object that is not yet allocated. -/
def isVirtual (v : Value) : Bool := v.origin?.isSome

/-- The pending field write of an object that is not yet allocated. -/
def field? : Value → Option Value
  | written _ field => some field
  | _ => none

/-- The text of a value. -/
def text : Value → String
  | constant n => "const " ++ n.toInt.repr
  | operand x => x.text
  | blank origin => "virtual(" ++ origin.text ++ ")"
  | written origin field => "virtual(" ++ origin.text ++ ", field = " ++ field.text ++ ")"

end Value

end TraceOpt
