import Mathlib.Data.List.Induction
import TraceOpt.Proofs.Trace.WellFormed

/-!
# Executing a trace

A valuation gives an integer to every input and to the results that a trace does not compute: the
objects it allocates and what calls and fields give.  Executing a trace under a valuation computes
the integer operations in order and stops at the first guard that fails.  What can be seen of an
execution are its steps, each with the integers that the operation got, and where it stopped.

* `Trace.WellFormed.consistent_afterAll`: the valuation reached at the end of a well-formed trace
  gives to every integer operation what the operation computes from it.
* `execute_congr`: executing from a valuation, or from one that holds all results in advance, is
  the same.
* `execute_forall_iff`: what holds of all steps holds of all operations that are reached.
-/

namespace TraceOpt

/-! ### Valuations -/

/-- What operands hold: an integer for every input and every result. -/
structure Valuation where
  /-- The inputs, by number. -/
  input : UInt32 → Int64
  /-- The results, by the id of the operation. -/
  result : OpId → Int64

namespace Valuation

variable (w : Valuation)

/-- What an operand holds. -/
def value : Operand → Int64
  | .input n => w.input n
  | .op id => w.result id
  | .const n => n

/-- Replaces a result. -/
def set (id : OpId) (n : Int64) : Valuation :=
  { w with result := fun i => if i = id then n else w.result i }

/-- The valuation in which every id has the result of the id it stands for. -/
def via (origin : OpId → OpId) : Valuation := { w with result := fun id => w.result (origin id) }

theorem set_result_self (id : OpId) : w.set id (w.result id) = w := by
  have : (fun i => if i = id then w.result id else w.result i) = w.result := by
    funext i
    split_ifs with h
    · rw [h]
    · rfl
  rw [set, this]

theorem value_set_of_ne {id : OpId} {n : Int64} {x : Operand} (h : x ≠ .op id) :
    (w.set id n).value x = w.value x := by
  cases x with
  | op i => exact if_neg fun hi => h (congrArg Operand.op hi)
  | input | const => rfl

end Valuation

/-! ### Steps -/

/-- What can be seen of one operation: its name, its kind and the integers it gets. -/
structure Step where
  /-- The id of the operation. -/
  id : OpId
  /-- The kind of the operation. -/
  kind : Kind
  /-- What its arguments hold. -/
  values : List Int64
  deriving DecidableEq

namespace Step

/-- The integer that a step computes; the steps of other kinds compute none. -/
def computed? (st : Step) : Option Int64 :=
  match st.values with
  | [a, b] => st.kind.eval? a b
  | _ => none

/-- Whether the step is a guard that does not pass. -/
def fails (st : Step) : Bool :=
  match st.kind, st.values with
  | .guardTrue, [a] => a == 0
  | .guardFalse, [a] => a != 0
  | _, _ => false

theorem computed?_eq_none {st : Step} (h : st.kind ∉ Kind.arithmetic) : st.computed? = none := by
  unfold computed?
  split
  · exact Kind.eval?_eq_none h ..
  · rfl

theorem exists_computed? {st : Step} (h : st.kind ∈ Kind.arithmetic) (h2 : st.values.length = 2) :
    ∃ n, st.computed? = some n := by
  obtain ⟨a, b, hab⟩ := List.length_eq_two.1 h2
  have hsome : (st.kind.eval? a b).isSome = true := Kind.eval?_isSome_iff.2 h
  obtain ⟨n, hn⟩ := Option.isSome_iff_exists.1 hsome
  exact ⟨n, by rw [computed?, hab]; exact hn⟩

theorem fails_eq_false {st : Step} (h : st.kind ∉ Kind.guards) : st.fails = false := by
  obtain ⟨id, kind, values⟩ := st
  cases kind with
  | guardTrue | guardFalse => simp [Kind.guards] at h
  | _ => rfl

theorem fails_guard {id : OpId} {k : Kind} (hk : k ∈ Kind.guards) (a : Int64) :
    (⟨id, k, [a]⟩ : Step).fails = (decide (a ≠ 0) != k.passes) := by
  cases k with
  | guardTrue | guardFalse => by_cases ha : a = 0 <;> simp [fails, Kind.passes, bne, ha]
  | _ => simp [Kind.guards] at hk

end Step

/-- The kinds whose steps are seen outside: reads, calls and the end. -/
def Kind.observed : List Kind := [getField, call, finish]

theorem Kind.not_mem_observed_of_mem_arithmetic {k : Kind} (h : k ∈ arithmetic) :
    k ∉ observed := by
  revert h
  cases k <;> decide

theorem Kind.not_mem_observed_of_mem_guards {k : Kind} (h : k ∈ guards) : k ∉ observed := by
  revert h
  cases k <;> decide

/-- The step that an operation makes under a valuation. -/
def Operation.step (op : Operation) (w : Valuation) : Step := ⟨op.id, op.kind, op.args.map w.value⟩

/-! ### Executions -/

/-- The valuation after an operation: the result of an integer operation is computed. -/
def Valuation.after (w : Valuation) (op : Operation) : Valuation :=
  match (op.step w).computed? with
  | some n => w.set op.id n
  | none => w

/-- The valuation after some operations. -/
def Valuation.afterAll (w : Valuation) (ops : List Operation) : Valuation := ops.foldl after w

/-- What can be seen of an execution. -/
structure Execution where
  /-- The steps, up to the guard that failed. -/
  steps : List Step
  /-- The guard that failed, if one did. -/
  stoppedAt? : Option OpId
  deriving DecidableEq

/-- Executes operations in order, up to the first guard that fails. -/
def execute (w : Valuation) : List Operation → Execution
  | [] => ⟨[], none⟩
  | op :: ops =>
    if (op.step w).fails then ⟨[op.step w], some op.id⟩
    else
      let e := execute (w.after op) ops
      ⟨op.step w :: e.steps, e.stoppedAt?⟩

/-- A property of the operations that are reached under a valuation that holds all results. -/
def Reached (w : Valuation) (P : Operation → Prop) : List Operation → Prop
  | [] => True
  | op :: ops => P op ∧ ((op.step w).fails = false → Reached w P ops)

theorem reached_of_forall {w : Valuation} {P : Operation → Prop} {ops : List Operation}
    (h : ∀ op ∈ ops, P op) : Reached w P ops := by
  induction ops with
  | nil => trivial
  | cons op ops ih =>
    obtain ⟨hop, hops⟩ := List.forall_mem_cons.1 h
    exact ⟨hop, fun _ => ih hops⟩

/-! ### Valuations that hold all results -/

/-- The result of an integer operation is what the operation computes. -/
def Valuation.Consistent (w : Valuation) (op : Operation) : Prop :=
  op.kind ∈ Kind.arithmetic → (op.step w).computed? = some (w.result op.id)

theorem Valuation.Consistent.after_eq {w : Valuation} {op : Operation} (h : w.Consistent op) :
    w.after op = w := by
  unfold after
  by_cases hk : op.kind ∈ Kind.arithmetic
  · rw [h hk]
    exact w.set_result_self op.id
  · rw [Step.computed?_eq_none hk]

theorem execute_cons {w : Valuation} {op : Operation} (h : w.Consistent op)
    (ops : List Operation) :
    execute w (op :: ops) =
      if (op.step w).fails then ⟨[op.step w], some op.id⟩
      else ⟨op.step w :: (execute w ops).steps, (execute w ops).stoppedAt?⟩ := by
  rw [execute, h.after_eq]

/-- An execution runs to the end when no guard fails. -/
theorem execute_stoppedAt?_eq_none {w : Valuation} {ops : List Operation}
    (h : ∀ op ∈ ops, w.Consistent op) :
    (execute w ops).stoppedAt? = none ↔ ∀ op ∈ ops, (op.step w).fails = false := by
  induction ops with
  | nil => simp [execute]
  | cons op ops ih =>
    obtain ⟨hop, hops⟩ := List.forall_mem_cons.1 h
    rw [execute_cons hop, List.forall_mem_cons, ← ih hops]
    by_cases hf : (op.step w).fails = true <;> simp [hf]

/-- **What holds of all steps holds of all operations that are reached**, under a valuation that
holds all results. -/
theorem execute_forall_iff {w : Valuation} {P : Step → Prop} {ops : List Operation}
    (h : Reached w w.Consistent ops) :
    (∀ st ∈ (execute w ops).steps, P st) ↔ Reached w (fun op => P (op.step w)) ops := by
  induction ops with
  | nil => simp [execute, Reached]
  | cons op ops ih =>
    obtain ⟨hop, hops⟩ := h
    rw [execute_cons hop, Reached]
    by_cases hf : (op.step w).fails = true
    · simp [hf]
    · rw [Bool.not_eq_true] at hf
      simp [hf, ih (hops hf)]

/-- Two valuations agree on what operations after those seen can get to know: the inputs, the
results seen, and the results that are not computed. -/
structure Valuation.Agrees (w v : Valuation) (seen ops : List Operation) : Prop where
  /-- The inputs are the same. -/
  input : w.input = v.input
  /-- The results seen are the same. -/
  seen : ∀ d ∈ seen, d.kind.hasResult = true → w.result d.id = v.result d.id
  /-- The results that are not computed are the same. -/
  given : ∀ d ∈ ops, d.kind ∉ Kind.arithmetic → w.result d.id = v.result d.id

namespace Valuation.Agrees

variable {w v : Valuation} {seen ops : List Operation} {op : Operation}

theorem value_eq (h : w.Agrees v seen ops) {x : Operand} (hx : x.DefinedIn seen) :
    w.value x = v.value x := by
  cases x with
  | input n => exact congrFun h.input n
  | const n => rfl
  | op id =>
    obtain ⟨d, hd, hk, rfl⟩ := hx
    exact h.seen d hd hk

theorem step_eq (h : w.Agrees v seen ops) (hargs : ∀ x ∈ op.args, x.DefinedIn seen) :
    op.step w = op.step v := by
  rw [Operation.step, Operation.step, List.map_congr_left fun x hx => h.value_eq (hargs x hx)]

/-- An operation keeps the agreement with a valuation that holds its result already. -/
theorem after (h : w.Agrees v seen (op :: ops)) (hargs : ∀ x ∈ op.args, x.DefinedIn seen)
    (hop : v.Consistent op) : (w.after op).Agrees v (seen ++ [op]) ops := by
  obtain ⟨hgiven, hrest⟩ := List.forall_mem_cons.1 h.given
  rw [Valuation.after, h.step_eq hargs]
  by_cases hk : op.kind ∈ Kind.arithmetic
  · rw [hop hk]
    -- the new result is the one that `v` holds, also where the id was in use
    have hset : ∀ id, (w.result id = v.result id ∨ id = op.id) →
        (w.set op.id (v.result op.id)).result id = v.result id := by
      intro id hid
      simp only [set]
      split_ifs with hop
      · rw [hop]
      · exact hid.resolve_right hop
    refine ⟨h.input, fun d hd hr => hset _ ?_, fun d hd hr => hset _ (Or.inl (hrest d hd hr))⟩
    rcases List.mem_append.1 hd with hd | hd
    · exact Or.inl (h.seen d hd hr)
    · exact Or.inr (by rw [List.mem_singleton.1 hd])
  · rw [Step.computed?_eq_none hk]
    refine ⟨h.input, fun d hd hr => ?_, hrest⟩
    rcases List.mem_append.1 hd with hd | hd
    · exact h.seen d hd hr
    · rw [List.mem_singleton.1 hd]
      exact hgiven hk

end Valuation.Agrees

/-- **Computing results on the way, or holding them in advance, is the same**: an execution does
not depend on the results that it computes. -/
theorem execute_congr {w v : Valuation} {seen ops : List Operation} (hscope : Scoped seen ops)
    (h : w.Agrees v seen ops) (hv : Reached v v.Consistent ops) :
    execute w ops = execute v ops := by
  induction ops generalizing seen w with
  | nil => rfl
  | cons op ops ih =>
    obtain ⟨hargs, hscope⟩ := hscope
    obtain ⟨hop, hops⟩ := hv
    rw [execute, execute, hop.after_eq, h.step_eq hargs]
    by_cases hf : (op.step v).fails = true
    · rw [if_pos hf, if_pos hf]
    · rw [if_neg hf, if_neg hf, ih hscope (h.after hargs hop) (hops (Bool.not_eq_true _ ▸ hf))]

/-! ### The valuation at the end -/

namespace Valuation

variable {w : Valuation} {ops : List Operation} {op d : Operation}

theorem afterAll_append_singleton (w : Valuation) (ops : List Operation) (op : Operation) :
    w.afterAll (ops ++ [op]) = (w.afterAll ops).after op := by
  rw [afterAll, List.foldl_append]
  rfl

theorem after_input (w : Valuation) (op : Operation) : (w.after op).input = w.input := by
  unfold after
  split <;> rfl

theorem afterAll_input (w : Valuation) (ops : List Operation) :
    (w.afterAll ops).input = w.input := by
  induction ops generalizing w with
  | nil => rfl
  | cons op ops ih => exact (ih _).trans (w.after_input op)

theorem after_result_of_ne {id : OpId} (h : id ≠ op.id) :
    (w.after op).result id = w.result id := by
  unfold after
  split
  · exact if_neg h
  · rfl

theorem value_after_of_ne {x : Operand} (h : x ≠ op.result) :
    (w.after op).value x = w.value x := by
  unfold after
  split
  · exact w.value_set_of_ne h
  · rfl

theorem step_after (h : op.result ∉ d.args) : d.step (w.after op) = d.step w := by
  have hargs : d.args.map (w.after op).value = d.args.map w.value :=
    List.map_congr_left fun x hx => value_after_of_ne fun hx' => h (hx' ▸ hx)
  rw [Operation.step, Operation.step, hargs]

theorem Consistent.after_of_ne (hd : w.Consistent d) (hid : d.id ≠ op.id)
    (hargs : op.result ∉ d.args) : (w.after op).Consistent d := by
  intro hk
  rw [step_after hargs, after_result_of_ne hid]
  exact hd hk

theorem consistent_after_self (hargs : op.result ∉ op.args)
    (harity : op.kind ∈ Kind.arithmetic → op.args.length = 2) : (w.after op).Consistent op := by
  intro hk
  have hlength : (op.step w).values.length = 2 := by
    rw [← harity hk]
    exact List.length_map _
  obtain ⟨n, hn⟩ := Step.exists_computed? hk hlength
  rw [step_after hargs, hn, after, hn]
  exact congrArg some (if_pos rfl).symm

theorem consistent_afterAll (hdistinct : (ops.map (·.id)).Nodup) (hscope : Scoped [] ops)
    (harity : ∀ op ∈ ops, op.kind ∈ Kind.arithmetic → op.args.length = 2) :
    ∀ op ∈ ops, (w.afterAll ops).Consistent op := by
  induction ops using List.reverseRecOn with
  | nil => exact fun _ h => nomatch h
  | append_singleton ops op ih =>
    rw [List.map_append, List.nodup_append] at hdistinct
    obtain ⟨hdistinct, -, hne⟩ := hdistinct
    have hid : ∀ d ∈ ops, d.id ≠ op.id := fun d hd =>
      hne _ (List.mem_map_of_mem hd) _ List.mem_cons_self
    obtain ⟨hscope, hop⟩ := scoped_append.1 hscope
    -- the last result is an argument of none of the operations up to it
    have hunused : ∀ d ∈ ops ++ [op], op.result ∉ d.args := by
      intro d hd hx
      have hdef : op.result.DefinedIn ops := by
        rcases List.mem_append.1 hd with hd | hd
        · exact hscope.definedIn hd hx
        · exact scoped_singleton.1 hop _ (List.mem_singleton.1 hd ▸ hx)
      obtain ⟨e, he, -, heq⟩ := hdef
      exact hid e he heq
    intro d hd
    rw [afterAll_append_singleton]
    rcases List.mem_append.1 hd with hd' | hd'
    · have hcons := ih hdistinct hscope (fun e he => harity e (List.mem_append_left _ he)) d hd'
      exact hcons.after_of_ne (hid d hd') (hunused d hd)
    · obtain rfl := List.mem_singleton.1 hd'
      exact consistent_after_self (hunused d hd) (harity d hd)

theorem afterAll_result_of_forall {id : OpId}
    (h : ∀ op ∈ ops, op.kind ∈ Kind.arithmetic → op.id ≠ id) :
    (w.afterAll ops).result id = w.result id := by
  induction ops generalizing w with
  | nil => rfl
  | cons op ops ih =>
    obtain ⟨hop, hops⟩ := List.forall_mem_cons.1 h
    refine (ih hops).trans ?_
    by_cases hk : op.kind ∈ Kind.arithmetic
    · exact after_result_of_ne (hop hk).symm
    · rw [after, Step.computed?_eq_none hk]

/-- Results that are not computed stay as they were given. -/
theorem afterAll_result (hdistinct : (ops.map (·.id)).Nodup) (hd : d ∈ ops)
    (hk : d.kind ∉ Kind.arithmetic) : (w.afterAll ops).result d.id = w.result d.id := by
  refine afterAll_result_of_forall fun op hop hop' hid => hk ?_
  rwa [← List.inj_on_of_nodup_map hdistinct hop hd hid]

end Valuation

/-- **The valuation at the end holds what the operations compute from it.** -/
theorem Trace.WellFormed.consistent_afterAll {t : Trace} (h : t.WellFormed) (w : Valuation) :
    ∀ op ∈ t.ops, (w.afterAll t.ops).Consistent op :=
  Valuation.consistent_afterAll h.distinct h.in_scope fun op hop hk =>
    h.arity op hop 2 (Kind.arity?_of_mem_arithmetic hk)

end TraceOpt
