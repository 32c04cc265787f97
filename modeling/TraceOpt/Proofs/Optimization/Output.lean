import TraceOpt.Proofs.Optimization.Invariant
import TraceOpt.Trace.Hash

/-!
# The optimized trace

The output of an optimization is again a well-formed trace.  Its operations are those of the trace
that survive, in their order and under their names, and fresh allocations between them.

* `Woven`: operations that are made of others by leaving out, replacing arguments and putting
  allocations in between.
* `optimizeWith_wellFormed`: the output is well-formed and is woven from the trace.
-/

namespace TraceOpt

/-- Operations that are made of others: some that nobody sees are left out, those that stay keep
their id, kind, type and number of arguments, and between them stand allocations under ids from the
first unused one on. -/
inductive Woven (first : OpId) : List Operation → List Operation → Prop
  | nil : Woven first [] []
  | allocation {ops outs : List Operation} {id : OpId} (hid : first ≤ id)
      (h : Woven first ops outs) : Woven first ops (⟨id, .new, [], some .ref⟩ :: outs)
  | drop {op : Operation} {ops outs : List Operation} (hk : op.kind ∉ Kind.observed)
      (h : Woven first ops outs) : Woven first (op :: ops) outs
  | keep {op : Operation} {ops outs : List Operation} {args : List Operand}
      (hlength : args.length = op.args.length) (h : Woven first ops outs) :
      Woven first (op :: ops) ({ op with args } :: outs)

namespace Woven

variable {first : OpId} {ops outs : List Operation}

theorem hasArity (h : Woven first ops outs) (hops : ∀ op ∈ ops, op.HasArity) :
    ∀ op ∈ outs, op.HasArity := by
  induction h with
  | nil => exact hops
  | allocation _ _ ih =>
    refine List.forall_mem_cons.2 ⟨fun n hn => ?_, ih hops⟩
    exact Option.some.inj hn
  | drop _ _ ih => exact ih (List.forall_mem_cons.1 hops).2
  | keep hlength _ ih =>
    obtain ⟨hop, hops⟩ := List.forall_mem_cons.1 hops
    exact List.forall_mem_cons.2 ⟨fun n hn => hlength.trans (hop n hn), ih hops⟩

theorem append_fresh {fresh : List Operation} {made : Allocations} (h : Woven first ops outs)
    (hfresh : fresh.Sublist (made.map allocated)) (hmade : ∀ p ∈ made, first ≤ p.1) :
    Woven first ops (fresh ++ outs) := by
  have hall : ∀ a ∈ fresh, ∃ p ∈ made, allocated p = a := fun a ha =>
    List.mem_map.1 (hfresh.subset ha)
  clear hfresh
  induction fresh with
  | nil => exact h
  | cons a fresh ih =>
    obtain ⟨⟨p, hp, rfl⟩, hrest⟩ := List.forall_mem_cons.1 hall
    exact .allocation (hmade p hp) (ih hrest)

theorem of_remains {op : Operation} {W : Valuation → Prop} {tail : List Operation}
    (h : Woven first ops outs) (htail : Remains op W tail) :
    Woven first (op :: ops) (tail ++ outs) := by
  cases htail with
  | dropped hk => exact .drop hk h
  | kept hlength => exact .keep hlength h

end Woven

section

variable [Hashable Operand]
variable {first : OpId} {ps : List Pass} {ops : List Operation} {s s' : Run} {made : Allocations}

theorem Feeds.woven (h : Feeds ps ops s s' made) (hs : s.bindings.Valid)
    (hops : ∀ op ∈ ops, op.HasArity) (hmade : ∀ p ∈ made, first ≤ p.1) :
    ∃ outs, s'.output.toList = s.output.toList ++ outs ∧ Woven first ops outs := by
  induction h with
  | nil => exact ⟨[], (List.append_nil _).symm, .nil⟩
  | @cons op ops s s₁ s' made₁ made₂ hop _ ih =>
    obtain ⟨harity, hops⟩ := List.forall_mem_cons.1 hops
    obtain ⟨hmade₁, hmade₂⟩ := List.forall_mem_append.1 hmade
    obtain ⟨fresh, tail, hout₁, hfresh, htail⟩ := hop.output hs harity
    obtain ⟨outs, hout, hwoven⟩ := ih (hop.valid hs) hops hmade₂
    refine ⟨fresh ++ (tail ++ outs), ?_, (hwoven.of_remains htail).append_fresh hfresh hmade₁⟩
    rw [hout, hout₁]
    simp only [List.append_assoc]
    rfl

end

/-- **The output is a well-formed trace**, made of operations of the trace in their order and of
fresh allocations. -/
theorem optimizeWith_wellFormed [Hashable Operand] (passes : List Pass) (t out : Trace)
    (tally : Tally) (ht : t.WellFormed) (hinputs : t.InputsInRange)
    (h : (optimizeWith passes t).result = .ok (out, tally)) :
    out.WellFormed ∧ out.inputs = t.inputs ∧ out.InputsInRange ∧
      ∃ first, t.nextFreeId? = some first ∧ Woven first t.ops out.ops := by
  obtain ⟨first, log, s, made, hfirst, hfeeds, hinv, hmade, rfl⟩ := ht.exists_feeds h
  obtain ⟨outs, hout, hwoven⟩ := hfeeds.woven HashTrie.valid_empty ht.arity hmade
  have hout : s.output.toList = outs := hout
  rw [← hout] at hwoven
  refine ⟨⟨hinv.output.distinct, hinv.output.in_scope, hwoven.hasArity ht.arity⟩, rfl,
    fun d hd x hx => ?_, first, hfirst, hwoven⟩
  cases x with
  | input n =>
    obtain ⟨e, he, hn⟩ := hinv.output.inputs d hd n hx
    exact hinputs e he _ hn
  | op | const => trivial

/-! ### A trace whose object escapes -/

/-- An object that is written to, passed to a call twice, and used once more at the end. -/
def escaping : Trace :=
  ⟨1, [⟨0, .new, [], some .ref⟩,
    ⟨1, .intLt, [.input 0, .const 10], some .int⟩,
    ⟨2, .guardTrue, [.op 1], none⟩,
    ⟨3, .setField, [.op 0, .op 1], none⟩,
    ⟨4, .call, [.op 0, .op 0], some .ref⟩,
    ⟨5, .intAdd, [.op 1, .const 2], some .int⟩,
    ⟨6, .finish, [.op 5, .op 0, .input 0], none⟩]⟩

/-- Stages of which two put off allocations. -/
def stacked : List Pass :=
  [.constantFolding, .allocationSinking, .guardPropagation, .allocationSinking]

/-- The object is allocated once in the output, after the two stages have forced it three times. -/
def escaped : Trace :=
  ⟨1, [⟨1, .intLt, [.input 0, .const 10], some .int⟩,
    ⟨2, .guardTrue, [.op 1], none⟩,
    ⟨9, .new, [], some .ref⟩,
    ⟨4, .call, [.op 9, .op 9], some .ref⟩,
    ⟨6, .finish, [.const 3, .op 9, .input 0], none⟩]⟩

/-- The counters of that optimization. -/
def escapedTally : Tally where
  opsIn := 7
  opsOut := 5
  folded := 1
  guardsKept := 1
  virtualsCreated := 3
  virtualsForced := 3
  setfieldsAbsorbed := 1
  stageCounts := [("constant_fold", 7), ("guard_propagation", 6), ("virtualize", 12)]

theorem optimizeWith_stacked_escaping :
    (optimizeWith stacked escaping).result = .ok (escaped, escapedTally) := by
  decide +kernel

theorem escaped_wellFormed :
    escaping.WellFormed ∧ escaping.InputsInRange ∧
      (optimizeWith stacked escaping).result = .ok (escaped, escapedTally) ∧
      escaped.WellFormed ∧ escaped.inputs = escaping.inputs ∧ escaped.InputsInRange ∧
      ∃ first, escaping.nextFreeId? = some first ∧ Woven first escaping.ops escaped.ops := by
  have hwellFormed : escaping.WellFormed := by decide
  have hinputs : escaping.InputsInRange := by decide
  exact ⟨hwellFormed, hinputs, optimizeWith_stacked_escaping,
    optimizeWith_wellFormed stacked escaping escaped escapedTally hwellFormed hinputs
      optimizeWith_stacked_escaping⟩

end TraceOpt
