/-!
# Traces

A trace is a straight-line sequence of recorded operations.  Every operation has an id, a kind,
arguments and possibly a result type; an argument is an input of the trace, the result of an
operation, or an integer literal.

* `Kind.eval?` is the arithmetic of the integer kinds: addition and subtraction wrap around,
  comparisons give 1 or 0.
* `Trace.nextFreeId?` is the first id above all ids of a trace (`Trace.lt_of_nextFreeId?`), if ids
  do not run out.
-/

namespace TraceOpt

/-- The number that names an operation. -/
abbrev OpId := UInt32

/-- The largest id. -/
def OpId.last : OpId := 4294967295

/-! ### Kinds -/

/-- The closed set of operation kinds. -/
inductive Kind where
  | intAdd
  | intSub
  | intEq
  | intLt
  | intGt
  | guardTrue
  | guardFalse
  | new
  | setField
  | getField
  | call
  | finish
  deriving DecidableEq

/-- What an operation leaves behind. -/
inductive ResultType where
  | int
  | ref
  | void
  deriving DecidableEq

namespace Kind

/-- All kinds, in the order in which tables list them. -/
def all : List Kind :=
  [intAdd, intSub, intEq, intLt, intGt, guardTrue, guardFalse, new, setField, getField, call,
    finish]

theorem mem_all (k : Kind) : k ∈ all := by
  cases k <;> decide

/-- The place of a kind in `Kind.all`. -/
def index (k : Kind) : Nat := all.idxOf k

/-- The integer kinds, whose result is a function of two integer arguments. -/
def arithmetic : List Kind := [intAdd, intSub, intEq, intLt, intGt]

/-- The kinds that check a truth value and leave the trace when it is the wrong one. -/
def guards : List Kind := [guardTrue, guardFalse]

/-- The result type recorded for a kind when none is given. -/
def defaultType : Kind → Option ResultType
  | intAdd | intSub | intEq | intLt | intGt => some .int
  | new | getField | call => some .ref
  | guardTrue | guardFalse | setField | finish => none

/-- The integer that stands for a truth value. -/
def ofTruth (b : Bool) : Int64 := if b then 1 else 0

/-- The result of an integer kind on two integers; the other kinds have none. -/
def eval? : Kind → Int64 → Int64 → Option Int64
  | intAdd, a, b => some (a + b)
  | intSub, a, b => some (a - b)
  | intEq, a, b => some (ofTruth (a == b))
  | intLt, a, b => some (ofTruth (decide (a < b)))
  | intGt, a, b => some (ofTruth (decide (b < a)))
  | _, _, _ => none

/-- The truth value that a guard of this kind lets pass. -/
def passes (k : Kind) : Bool := k == guardTrue

end Kind

/-! ### Operands and operations -/

/-- An argument of an operation. -/
inductive Operand where
  /-- An input of the trace, by number. -/
  | input (n : UInt32)
  /-- The result of an operation. -/
  | op (id : OpId)
  /-- An integer literal. -/
  | const (n : Int64)
  deriving DecidableEq

namespace Operand

/-- The order of listings: inputs, then results, then literals, each by number. -/
def le : Operand → Operand → Bool
  | input m, input n => m ≤ n
  | input _, _ => true
  | op _, input _ => false
  | op m, op n => m ≤ n
  | op _, const _ => true
  | const m, const n => m ≤ n
  | const _, _ => false

end Operand

/-- A recorded operation. -/
structure Operation where
  /-- The name of the operation and of its result. -/
  id : OpId
  /-- What the operation does. -/
  kind : Kind
  /-- What it works on. -/
  args : List Operand
  /-- The type of its result, if one was recorded. -/
  type : Option ResultType
  deriving DecidableEq

namespace Operation

variable (op : Operation)

/-- The operand that refers to the result of the operation. -/
def result : Operand := .op op.id

/-- Whether the operation leaves a value behind. -/
def producesValue : Bool := op.type == some .int || op.type == some .ref

end Operation

/-! ### Traces -/

/-- A trace: its number of inputs and its operations in order. -/
structure Trace where
  /-- How many inputs there are. -/
  inputs : UInt32
  /-- The operations, first to last. -/
  ops : List Operation
  deriving DecidableEq

namespace Trace

variable (t : Trace)

/-- The number of operations of a kind. -/
def count (k : Kind) : Nat := t.ops.countP (·.kind == k)

/-- The least number above all ids of the trace. -/
def idBound : Nat := t.ops.foldr (fun op bound => max (op.id.toNat + 1) bound) 0

/-- The first id above all ids of the trace; there is none when `OpId.last` is in use. -/
def nextFreeId? : Option OpId :=
  if t.idBound ≤ OpId.last.toNat then some (.ofNat t.idBound) else none

variable {t}

theorem lt_idBound {op : Operation} (h : op ∈ t.ops) : op.id.toNat < t.idBound := by
  obtain ⟨inputs, ops⟩ := t
  simp only [idBound] at h ⊢
  induction ops with
  | nil => simp at h
  | cons o ops ih =>
    rw [List.foldr_cons]
    rcases List.mem_cons.1 h with rfl | h
    · exact Nat.lt_of_lt_of_le (Nat.lt_succ_self _) (Nat.le_max_left ..)
    · exact Nat.lt_of_lt_of_le (ih h) (Nat.le_max_right ..)

/-- **Fresh ids are above the ids of the trace.** -/
theorem lt_of_nextFreeId? {op : Operation} {id : OpId} (h : op ∈ t.ops)
    (hid : t.nextFreeId? = some id) : op.id < id := by
  have hlt := lt_idBound h
  unfold nextFreeId? at hid
  split at hid
  · next hle =>
    obtain rfl := Option.some.inj hid
    rw [UInt32.lt_iff_toNat_lt, UInt32.toNat_ofNat_of_lt' (Nat.lt_succ_of_le hle)]
    exact hlt
  · cases hid

end Trace

end TraceOpt
