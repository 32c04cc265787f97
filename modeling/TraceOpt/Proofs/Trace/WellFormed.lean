import Mathlib.Data.List.Nodup
import TraceOpt.Trace.Basic

/-!
# Well-formed traces

In a well-formed trace every id names one operation, arguments that name an operation name an
earlier one with a result, and operations have as many arguments as their kind asks for.  The
property is decidable.
-/

namespace TraceOpt

/-! ### What a kind asks for -/

namespace Kind

/-- Whether operations of a kind have a result that others may use. -/
def hasResult : Kind → Bool
  | intAdd | intSub | intEq | intLt | intGt | new | getField | call => true
  | guardTrue | guardFalse | setField | finish => false

/-- How many arguments operations of a kind have, where that is fixed. -/
def arity? : Kind → Option Nat
  | intAdd | intSub | intEq | intLt | intGt | setField => some 2
  | guardTrue | guardFalse => some 1
  | new => some 0
  | getField | call | finish => none

theorem hasResult_of_mem_arithmetic {k : Kind} (h : k ∈ arithmetic) : k.hasResult = true := by
  revert h
  cases k <;> decide

theorem arity?_of_mem_arithmetic {k : Kind} (h : k ∈ arithmetic) : k.arity? = some 2 := by
  revert h
  cases k <;> decide

theorem mem_guards_iff {k : Kind} : k ∈ guards ↔ k = guardTrue ∨ k = guardFalse := by
  simp [guards]

theorem arity?_of_mem_guards {k : Kind} (h : k ∈ guards) : k.arity? = some 1 := by
  revert h
  cases k <;> decide

theorem not_mem_guards_of_mem_arithmetic {k : Kind} (h : k ∈ arithmetic) : k ∉ guards := by
  revert h
  cases k <;> decide

theorem hasResult_of_mem_guards {k : Kind} (h : k ∈ guards) : k.hasResult = false := by
  revert h
  cases k <;> decide

theorem eval?_isSome_iff {k : Kind} {a b : Int64} :
    (k.eval? a b).isSome = true ↔ k ∈ arithmetic := by
  cases k <;> simp [eval?, arithmetic]

theorem eval?_eq_none {k : Kind} (h : k ∉ arithmetic) (a b : Int64) : k.eval? a b = none := by
  rw [← Option.not_isSome_iff_eq_none, eval?_isSome_iff]
  exact h

end Kind

/-! ### Scopes -/

/-- An argument that may stand after some operations: a result is one of theirs. -/
def Operand.DefinedIn (seen : List Operation) : Operand → Prop
  | .op id => ∃ d ∈ seen, d.kind.hasResult = true ∧ d.id = id
  | _ => True

instance (seen : List Operation) : DecidablePred (Operand.DefinedIn seen)
  | .input _ | .const _ => isTrue trivial
  | .op id => inferInstanceAs (Decidable (∃ d ∈ seen, d.kind.hasResult = true ∧ d.id = id))

/-- Operations that, after those seen, use results of earlier operations only. -/
def Scoped (seen : List Operation) : List Operation → Prop
  | [] => True
  | op :: ops => (∀ x ∈ op.args, x.DefinedIn seen) ∧ Scoped (seen ++ [op]) ops

instance decidableScoped : (seen ops : List Operation) → Decidable (Scoped seen ops)
  | _, [] => isTrue trivial
  | seen, op :: ops =>
    have := decidableScoped (seen ++ [op]) ops
    inferInstanceAs (Decidable ((∀ x ∈ op.args, x.DefinedIn seen) ∧ Scoped (seen ++ [op]) ops))

theorem Operand.DefinedIn.mono {seen seen' : List Operation} {x : Operand}
    (h : x.DefinedIn seen) (hsub : ∀ op ∈ seen, op ∈ seen') : x.DefinedIn seen' := by
  cases x with
  | op id =>
    obtain ⟨d, hd, hid⟩ := h
    exact ⟨d, hsub d hd, hid⟩
  | input | const => trivial

theorem Operand.definedIn_result {seen : List Operation} {op : Operation} (hop : op ∈ seen)
    (hk : op.kind.hasResult = true) : op.result.DefinedIn seen :=
  ⟨op, hop, hk, rfl⟩

/-- A result of one operation more is its result or one from before. -/
theorem Operand.DefinedIn.append_singleton {seen : List Operation} {op : Operation} {x : Operand}
    (h : x.DefinedIn (seen ++ [op])) :
    x.DefinedIn seen ∨ op.kind.hasResult = true ∧ x = op.result := by
  cases x with
  | input | const => exact Or.inl trivial
  | op id =>
    obtain ⟨d, hd, hk, rfl⟩ := h
    rcases List.mem_append.1 hd with hd | hd
    · exact Or.inl ⟨d, hd, hk, rfl⟩
    · obtain rfl := List.mem_singleton.1 hd
      exact Or.inr ⟨hk, rfl⟩

theorem scoped_append {seen a b : List Operation} :
    Scoped seen (a ++ b) ↔ Scoped seen a ∧ Scoped (seen ++ a) b := by
  induction a generalizing seen with
  | nil => simp [Scoped]
  | cons op a ih => simp [Scoped, ih, and_assoc]

theorem scoped_singleton {seen : List Operation} {op : Operation} :
    Scoped seen [op] ↔ ∀ x ∈ op.args, x.DefinedIn seen :=
  and_iff_left trivial

theorem Scoped.definedIn {seen ops : List Operation} (h : Scoped seen ops) {op : Operation}
    (hop : op ∈ ops) {x : Operand} (hx : x ∈ op.args) : x.DefinedIn (seen ++ ops) := by
  obtain ⟨before, after, rfl⟩ := List.append_of_mem hop
  refine ((scoped_append.1 h).2.1 x hx).mono fun d hd => ?_
  rw [← List.append_assoc]
  exact List.mem_append_left _ hd

/-! ### Well-formed traces -/

/-- An operation with as many arguments as its kind asks for. -/
def Operation.HasArity (op : Operation) : Prop := ∀ n ∈ op.kind.arity?, op.args.length = n

instance (op : Operation) : Decidable op.HasArity :=
  inferInstanceAs (Decidable (∀ n ∈ op.kind.arity?, op.args.length = n))

/-- A trace whose operations can be told apart, refer backwards and have their arguments. -/
structure Trace.WellFormed (t : Trace) : Prop where
  /-- Every id names one operation. -/
  distinct : (t.ops.map (·.id)).Nodup
  /-- Results are used after the operation that gives them. -/
  in_scope : Scoped [] t.ops
  /-- Every operation has the arguments that its kind asks for. -/
  arity : ∀ op ∈ t.ops, op.HasArity

/-- An operand that is no input beyond a number of them. -/
def Operand.InRange (inputs : UInt32) : Operand → Prop
  | .input n => n < inputs
  | _ => True

instance (inputs : UInt32) : DecidablePred (Operand.InRange inputs)
  | .input n => inferInstanceAs (Decidable (n < inputs))
  | .op _ | .const _ => isTrue trivial

/-- A trace that uses none but its own inputs. -/
def Trace.InputsInRange (t : Trace) : Prop := ∀ op ∈ t.ops, ∀ x ∈ op.args, x.InRange t.inputs

instance (t : Trace) : Decidable t.InputsInRange :=
  inferInstanceAs (Decidable (∀ op ∈ t.ops, ∀ x ∈ op.args, x.InRange t.inputs))

namespace Trace

variable {t : Trace}

instance : Decidable t.WellFormed :=
  decidable_of_iff ((t.ops.map (·.id)).Nodup ∧ Scoped [] t.ops ∧ ∀ op ∈ t.ops, op.HasArity)
    ⟨fun h => ⟨h.1, h.2.1, h.2.2⟩, fun h => ⟨h.distinct, h.in_scope, h.arity⟩⟩

/-- The first operations of a well-formed trace are a well-formed trace. -/
theorem WellFormed.take (h : t.WellFormed) (i : Nat) :
    ({ t with ops := t.ops.take i } : Trace).WellFormed := by
  refine ⟨?_, ?_, fun op hop => h.arity op (List.mem_of_mem_take hop)⟩
  · exact h.distinct.sublist ((List.take_sublist i t.ops).map _)
  · have hscope := h.in_scope
    rw [← List.take_append_drop i t.ops, scoped_append] at hscope
    exact hscope.1

end Trace

end TraceOpt
