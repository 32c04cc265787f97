import TraceOpt.Proofs.Optimization.Output
import TraceOpt.Trace.Hash

/-!
# What an optimization preserves

A trace and its optimized form do the same.  Fresh allocations stand for `new` operations of the
trace; given what these hold, both traces end in the same way, with the same reads, calls and end.
Truth is taken to be 1: executions in which a guard for truth passes on another integer are left
out.

* `Follows`: operations that do the same as others, up to the first guard that fails.
* `Feeds.follows`: the output follows the trace.
* `optimizeWith_execution`: the optimized trace does the same as the trace.
-/

namespace TraceOpt

/-! ### Executions that look the same -/

/-- An execution that looks the same as another: it ends in the same way, its steps under ids below
the first unused one are steps of the other, and reads, calls and the end are the same. -/
structure Execution.Resembles (first : OpId) (e' e : Execution) : Prop where
  /-- Both run to the end, or both stop at the same guard. -/
  ending : e'.stoppedAt? = e.stoppedAt?
  /-- Steps are added under fresh ids only. -/
  steps : (e'.steps.filter fun st => st.id < first).Sublist e.steps
  /-- The steps that are seen outside are the same. -/
  observed : e'.steps.filter (·.kind ∈ Kind.observed) = e.steps.filter (·.kind ∈ Kind.observed)

namespace Execution.Resembles

variable {first : OpId} {e' e : Execution} {st : Step}

theorem refl (e : Execution) : Resembles first e e := ⟨rfl, List.filter_sublist, rfl⟩

theorem allocation (h : Resembles first e' e) (hid : first ≤ st.id) (hk : st.kind = .new) :
    Resembles first ⟨st :: e'.steps, e'.stoppedAt?⟩ e := by
  refine ⟨h.ending, ?_, ?_⟩
  · rw [List.filter_cons_of_neg]
    · exact h.steps
    · simpa using hid
  · rw [List.filter_cons_of_neg]
    · exact h.observed
    · rw [hk]
      decide

theorem drop (h : Resembles first e' e) (hk : st.kind ∉ Kind.observed) :
    Resembles first e' ⟨st :: e.steps, e.stoppedAt?⟩ := by
  refine ⟨h.ending, h.steps.cons st, ?_⟩
  rw [List.filter_cons_of_neg]
  · exact h.observed
  · simpa using hk

theorem keep (h : Resembles first e' e) (st : Step) :
    Resembles first ⟨st :: e'.steps, e'.stoppedAt?⟩ ⟨st :: e.steps, e.stoppedAt?⟩ := by
  refine ⟨h.ending, ?_, ?_⟩
  · rw [List.filter_cons]
    split_ifs
    · exact h.steps.cons_cons st
    · exact h.steps.cons st
  · rw [List.filter_cons, List.filter_cons, h.observed]

end Execution.Resembles

/-! ### Operations that do the same as others -/

/-- Operations that do the same as others under a valuation, up to the first guard that fails, apart
from allocations under ids from the first unused one on. -/
inductive Follows (first : OpId) (w : Valuation) : List Operation → List Operation → Prop
  | nil : Follows first w [] []
  | allocation {a : Operation} {ops outs : List Operation} (hk : a.kind = .new)
      (hid : first ≤ a.id) (h : Follows first w ops outs) : Follows first w ops (a :: outs)
  | drop {op : Operation} {ops outs : List Operation} (hk : op.kind ∉ Kind.observed)
      (hpass : (op.step w).fails = false) (h : Follows first w ops outs) :
      Follows first w (op :: ops) outs
  | keep {op o : Operation} {ops outs : List Operation} (hstep : o.step w = op.step w)
      (h : (op.step w).fails = false → Follows first w ops outs) :
      Follows first w (op :: ops) (o :: outs)

theorem Valuation.consistent_of_kind {w : Valuation} {op : Operation} (h : op.kind = .new) :
    w.Consistent op := by
  intro hk
  rw [h] at hk
  simp [Kind.arithmetic] at hk

namespace Follows

variable {first : OpId} {w : Valuation} {ops outs : List Operation}

theorem allocation_fails {a : Operation} (h : a.kind = .new) : (a.step w).fails = false := by
  have hguard : a.kind ∉ Kind.guards := by rw [h]; decide
  exact Step.fails_eq_false hguard

theorem consistent (h : Follows first w ops outs) (hops : ∀ op ∈ ops, w.Consistent op) :
    Reached w w.Consistent outs := by
  induction h with
  | nil => trivial
  | allocation hk _ _ ih => exact ⟨Valuation.consistent_of_kind hk, fun _ => ih hops⟩
  | drop _ _ _ ih => exact ih (List.forall_mem_cons.1 hops).2
  | @keep op o ops outs hstep _ ih =>
    obtain ⟨hop, hops⟩ := List.forall_mem_cons.1 hops
    refine ⟨fun hk => ?_, fun hpass => ih (hstep ▸ hpass) hops⟩
    have hid : o.id = op.id := congrArg Step.id hstep
    have hkind : o.kind = op.kind := congrArg Step.kind hstep
    rw [hstep, hid]
    exact hop (hkind ▸ hk)

theorem resembles (h : Follows first w ops outs) (hops : ∀ op ∈ ops, w.Consistent op) :
    (execute w outs).Resembles first (execute w ops) := by
  have houts := h.consistent hops
  induction h with
  | nil => exact .refl _
  | allocation hk hid _ ih =>
    rw [execute_cons houts.1, if_neg (Bool.not_eq_true _ ▸ allocation_fails hk)]
    exact (ih hops (houts.2 (allocation_fails hk))).allocation hid hk
  | drop hk hpass _ ih =>
    obtain ⟨hop, hops⟩ := List.forall_mem_cons.1 hops
    rw [execute_cons hop, if_neg (Bool.not_eq_true _ ▸ hpass)]
    exact (ih hops houts).drop hk
  | @keep op o ops outs hstep _ ih =>
    obtain ⟨hop, hops⟩ := List.forall_mem_cons.1 hops
    have hid : o.id = op.id := congrArg Step.id hstep
    rw [execute_cons hop, execute_cons houts.1, hstep, hid]
    by_cases hf : (op.step w).fails = true
    · rw [if_pos hf, if_pos hf]
      exact .refl _
    · rw [if_neg hf, if_neg hf]
      rw [Bool.not_eq_true] at hf
      exact (ih hf hops (houts.2 (hstep ▸ hf))).keep _

end Follows

/-! ### The output follows the trace -/

/-- A guard for truth passes on 1 only. -/
def Step.Boolean (st : Step) : Prop := st.kind = .guardTrue → st.fails = false → st.values = [1]

instance : DecidablePred Step.Boolean := fun st =>
  inferInstanceAs (Decidable (st.kind = .guardTrue → st.fails = false → st.values = [1]))

section

variable {first : OpId} {ps : List Pass} {ops : List Operation} {s s' : Run} {made : Allocations}

theorem Follows.append_fresh {w : Valuation} {outs fresh : List Operation}
    (h : Follows first w ops outs) (hfresh : fresh.Sublist (made.map allocated))
    (hmade : ∀ p ∈ made, first ≤ p.1) : Follows first w ops (fresh ++ outs) := by
  have hall : ∀ a ∈ fresh, ∃ p ∈ made, allocated p = a := fun a ha =>
    List.mem_map.1 (hfresh.subset ha)
  clear hfresh
  induction fresh with
  | nil => exact h
  | cons a fresh ih =>
    obtain ⟨⟨p, hp, rfl⟩, hrest⟩ := List.forall_mem_cons.1 hall
    exact .allocation rfl (hmade p hp) (ih hrest)

variable [Hashable Operand]

theorem Step.Boolean.heeds {w : Valuation} {op : Operation} (h : (op.step w).Boolean)
    (hpass : (op.step w).fails = false) (s : Run) : s.Heeds w op := by
  intro hk x hx _
  have hvalues : op.args.map w.value = [1] := h hk hpass
  have hmem := List.mem_map_of_mem (f := w.value) hx
  rw [hvalues] at hmem
  exact List.mem_singleton.1 hmem

/-- **The output follows the trace**, under every valuation that holds all results. -/
theorem Feeds.follows (h : Feeds ps ops s s' made) (hs : s.bindings.Valid)
    (hops : ∀ op ∈ ops, op.HasArity) (hmade : ∀ p ∈ made, first ≤ p.1) :
    ∃ outs, s'.output.toList = s.output.toList ++ outs ∧
      ∀ w, s.Sound w → w.Respects made → (∀ op ∈ ops, w.Consistent op) →
        Reached w (fun op => (op.step w).Boolean) ops → Follows first w ops outs := by
  induction h with
  | nil => exact ⟨[], (List.append_nil _).symm, fun w _ _ _ _ => .nil⟩
  | @cons op ops s s₁ s' made₁ made₂ hop _ ih =>
    obtain ⟨harity, hops⟩ := List.forall_mem_cons.1 hops
    obtain ⟨hmade₁, hmade₂⟩ := List.forall_mem_append.1 hmade
    obtain ⟨fresh, tail, hout₁, hfresh, htail⟩ := hop.output hs harity
    obtain ⟨outs, hout, hfollows⟩ := ih (hop.valid hs) hops hmade₂
    refine ⟨fresh ++ (tail ++ outs), ?_, fun w hsound hrespects hconsistent hboolean => ?_⟩
    · rw [hout, hout₁]
      simp only [List.append_assoc]
      rfl
    · obtain ⟨hrespects₁, hrespects₂⟩ := List.forall_mem_append.1 hrespects
      obtain ⟨hcons, hconsistent⟩ := List.forall_mem_cons.1 hconsistent
      -- beyond the operation, the output follows the trace unless the operation is the end
      have hrest : (op.step w).fails = false → Follows first w ops outs := by
        intro hpass
        have hsound₁ := hop.sound hs hsound hrespects₁ harity hcons hpass
          (hboolean.1.heeds hpass s₁)
        exact hfollows w hsound₁ hrespects₂ hconsistent (hboolean.2 hpass)
      refine Follows.append_fresh ?_ hfresh hmade₁
      cases htail with
      | dropped hk hpass =>
        have hpass := hpass w ⟨hsound, hrespects₁⟩
        exact .drop hk hpass (hrest hpass)
      | kept _ hvalues =>
        refine .keep ?_ hrest
        rw [Operation.step, Operation.step, hvalues w ⟨hsound, hrespects₁⟩]

end

/-! ### Whole traces -/

section

variable {base : Nat} {t : Trace} {ops : List Operation} {made : Allocations} {nextId : OpId}
  {s : Run}

/-- The valuation at the end of a trace, in which fresh allocations hold what they stand for. -/
def Valuation.final (w : Valuation) (ops : List Operation) (made : Allocations) : Valuation :=
  (w.afterAll ops).via (Allocations.origin made)

theorem Ledger.respects (h : Ledger base ops made nextId) (w : Valuation) :
    (w.final ops made).Respects made := fun p hp =>
  congrArg (w.afterAll ops).result (h.origin_eq p hp)

theorem Ledger.final_result (h : Ledger base ops made nextId) (w : Valuation) {d : Operation}
    (hd : d ∈ ops) : (w.final ops made).result d.id = (w.afterAll ops).result d.id :=
  congrArg (w.afterAll ops).result (h.origin_of_lt (h.seen_lt d hd))

theorem Ledger.final_value (h : Ledger base ops made nextId) (w : Valuation) {x : Operand}
    (hx : x.DefinedIn ops) : (w.final ops made).value x = (w.afterAll ops).value x := by
  cases x with
  | input | const => rfl
  | op id =>
    obtain ⟨d, hd, -, rfl⟩ := hx
    exact h.final_result w hd

theorem Ledger.final_consistent (h : Ledger base t.ops made nextId) (ht : t.WellFormed)
    (w : Valuation) : ∀ op ∈ t.ops, (w.final t.ops made).Consistent op := by
  intro op hop hk
  have hstep : op.step (w.final t.ops made) = op.step (w.afterAll t.ops) := by
    have hargs := List.map_congr_left fun x hx => h.final_value w (ht.in_scope.definedIn hop hx)
    rw [Operation.step, Operation.step, hargs]
  rw [hstep, h.final_result w hop]
  exact ht.consistent_afterAll w op hop hk

/-- Executing the trace does not depend on the results that it computes. -/
theorem Ledger.execute_final (h : Ledger base t.ops made nextId) (ht : t.WellFormed)
    (w : Valuation) : execute w t.ops = execute (w.final t.ops made) t.ops := by
  refine execute_congr ht.in_scope ⟨?_, fun d hd => (nomatch hd), fun d hd hk => ?_⟩
    (reached_of_forall (h.final_consistent ht w))
  · exact (w.afterAll_input t.ops).symm
  · rw [h.final_result w hd, Valuation.afterAll_result ht.distinct hd hk]

variable [Hashable Operand]

/-- Executing the output does not depend on the results that it computes. -/
theorem Invariant.execute_output (h : Invariant base t.ops made s) (ht : t.WellFormed)
    (w : Valuation)
    (hout : Reached (w.final t.ops made) (w.final t.ops made).Consistent s.output.toList) :
    execute (w.via (Allocations.origin made)) s.output.toList =
      execute (w.final t.ops made) s.output.toList := by
  refine execute_congr h.output.in_scope ⟨?_, fun d hd => (nomatch hd), fun d hd hk => ?_⟩ hout
  · exact (w.afterAll_input t.ops).symm
  · -- the result is that of an operation of the trace which does not compute either
    have horigin : ∃ e ∈ t.ops, e.kind ∉ Kind.arithmetic ∧ e.id = Allocations.origin made d.id := by
      rcases h.output.named d hd with ⟨e, he, hid, hkind⟩ | ⟨p, hp, rfl⟩
      · rw [← hid, h.ledger.origin_of_lt (h.ledger.seen_lt e he)]
        exact ⟨e, he, hkind ▸ hk, rfl⟩
      · obtain ⟨e, he, hnew, hid⟩ := h.ledger.origin_new p hp
        exact ⟨e, he, by rw [hnew]; decide, hid⟩
    obtain ⟨e, he, hek, hid⟩ := horigin
    change w.result (Allocations.origin made d.id) =
      (w.afterAll t.ops).result (Allocations.origin made d.id)
    rw [← hid, Valuation.afterAll_result ht.distinct he hek]

end

/-- **The optimized trace does the same as the trace**: fresh allocations stand for `new` operations
of the trace, and whatever these hold, executions look the same as long as guards for truth pass on
1 only. -/
theorem optimizeWith_execution [Hashable Operand] (passes : List Pass) (t out : Trace)
    (tally : Tally) (ht : t.WellFormed) (h : (optimizeWith passes t).result = .ok (out, tally)) :
    ∃ first origin, t.nextFreeId? = some first ∧ (∀ id < first, origin id = id) ∧
      (∀ d ∈ out.ops, first ≤ d.id →
        d.kind = .new ∧ ∃ e ∈ t.ops, e.kind = .new ∧ e.id = origin d.id) ∧
      ∀ w, (∀ st ∈ (execute w t.ops).steps, st.Boolean) →
        (execute (w.via origin) out.ops).Resembles first (execute w t.ops) := by
  obtain ⟨first, log, s, made, hfirst, hfeeds, hinv, hmade, rfl⟩ := ht.exists_feeds h
  have hledger := hinv.ledger
  have hbound := Trace.toNat_of_nextFreeId? hfirst
  obtain ⟨outs, hout, hfollows⟩ := hfeeds.follows HashTrie.valid_empty ht.arity hmade
  have hout : s.output.toList = outs := hout
  rw [← hout] at hfollows
  refine ⟨first, Allocations.origin made, hfirst, fun id hid => ?_, fun d hd hid => ?_,
    fun w hboolean => ?_⟩
  · rw [UInt32.lt_iff_toNat_lt, hbound] at hid
    exact hledger.origin_of_lt hid
  · rcases hinv.output.named d hd with ⟨e, he, heq, -⟩ | ⟨p, hp, rfl⟩
    · have hlt := hledger.seen_lt e he
      rw [UInt32.le_iff_toNat_le, hbound, ← heq] at hid
      omega
    · exact ⟨rfl, hledger.origin_new p hp⟩
  · -- under the valuation at the end, neither trace has anything left to compute
    have hconsistent := hledger.final_consistent ht w
    rw [hledger.execute_final ht w] at hboolean ⊢
    have hreached := (execute_forall_iff (reached_of_forall hconsistent)).1 hboolean
    have hfollows := hfollows _ (Run.sound_start _ first log) (hledger.respects w) hconsistent
      hreached
    rw [hinv.execute_output ht w (hfollows.consistent hconsistent)]
    exact hfollows.resembles hconsistent

/-- Under a valuation in which the guard of `escaping` passes, the execution gets to the end. -/
theorem escaped_execution :
    escaping.WellFormed ∧ (optimizeWith stacked escaping).result = .ok (escaped, escapedTally) ∧
      ∃ origin, origin 9 = 0 ∧ ∃ w : Valuation,
        (∀ st ∈ (execute w escaping.ops).steps, st.Boolean) ∧
        (execute w escaping.ops).stoppedAt? = none ∧
        (execute (w.via origin) escaped.ops).Resembles 7 (execute w escaping.ops) := by
  have hwellFormed : escaping.WellFormed := by decide
  refine ⟨hwellFormed, optimizeWith_stacked_escaping, ?_⟩
  obtain ⟨first, origin, hfirst, -, horigin, hmeaning⟩ := optimizeWith_execution stacked escaping
    escaped escapedTally hwellFormed optimizeWith_stacked_escaping
  obtain rfl : first = 7 := (Option.some.inj hfirst).symm
  have hboolean : ∀ st ∈ (execute ⟨fun _ => 3, fun _ => 4⟩ escaping.ops).steps, st.Boolean := by
    decide
  refine ⟨origin, ?_, _, hboolean, rfl, hmeaning _ hboolean⟩
  obtain ⟨-, e, he, hnew, hid⟩ := horigin ⟨9, .new, [], some .ref⟩ (by decide) (by decide)
  have honly : ∀ e ∈ escaping.ops, e.kind = .new → e.id = 0 := by decide
  rw [← hid, honly e he hnew]

end TraceOpt
