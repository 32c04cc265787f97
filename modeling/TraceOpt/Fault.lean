import TraceOpt.Value

/-!
# Faults

The ways in which an optimization ends without a result: the trace contradicts itself or is
malformed, a route table has a gap, a stage lets an unallocated object through, or a number does
not fit its word.
`Fault.message` is their wording.
-/

namespace TraceOpt

/-- Why an optimization gives no result. -/
inductive Fault where
  /-- A guard checks a value known to be a constant that it does not let pass. -/
  | guardContradiction (op : OpId) (guard : Kind) (value : Int64)
  /-- A route table leaves out a kind and has no default. -/
  | missingHandler (kind : Kind)
  /-- A value was taken for an integer and is none. -/
  | notConstant (value : Value)
  /-- An operation lacks arguments, or has too many. -/
  | arity (op : OpId) (kind : Kind) (expected got : Nat)
  /-- An object was used in the output before its allocation. -/
  | escapedVirtual (origin : OpId)
  /-- A number does not fit its word: no id is left, or a place is too large to be counted. -/
  | overflow
  deriving DecidableEq

namespace Fault

/-- The wording of a fault. -/
def message : Fault → String
  | guardContradiction op guard value =>
    "guard " ++ guard.text ++ " on " ++ op.text ++ " contradicts known constant " ++ value.toInt.repr
  | missingHandler kind =>
    "no handler registered for `" ++ kind.text ++ "` and no default handler supplied"
  | notConstant value => "value is not a constant: " ++ value.text
  | arity op kind expected got =>
    "`" ++ kind.text ++ "` (" ++ op.text ++ ") needs " ++ expected.repr ++ " argument(s), got "
      ++ got.repr
  | escapedVirtual origin =>
    "virtual object allocated by " ++ origin.text ++ " escaped into the output trace"
  | overflow => "attempt to add with overflow"

/-- Whether a fault shows a broken trace or stage, and not a table left incomplete. -/
def isDefect : Fault → Bool
  | missingHandler _ => false
  | _ => true

end Fault

/-- The argument of an operation at a place, or the fault that it is missing.  That fault counts
the arguments up to the place, in a 64-bit word. -/
def Operation.arg (op : Operation) (i : Nat) : Except Fault Operand :=
  match op.args[i]? with
  | some x => .ok x
  | none =>
    if i + 1 < UInt64.size then .error (.arity op.id op.kind (i + 1) op.args.length)
    else .error .overflow

theorem Operation.arg_eq_ok_iff {op : Operation} {i : Nat} {x : Operand} :
    op.arg i = .ok x ↔ op.args[i]? = some x := by
  unfold arg
  cases op.args[i]? with
  | some y => simp
  | none =>
    simp only [reduceCtorEq, iff_false]
    split <;> simp

/-- The integer that a value is known to be. -/
def Value.asInt : Value → Except Fault Int64
  | constant n => .ok n
  | v => .error (.notConstant v)

end TraceOpt
