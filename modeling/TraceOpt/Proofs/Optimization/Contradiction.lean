import TraceOpt.Proofs.Optimization.Constants
import TraceOpt.Proofs.Optimization.Faults
import TraceOpt.Proofs.Optimization.Placement
import TraceOpt.Trace.Hash

/-!
# Contradictions are real

A guard that contradicts what is known ends an optimization.  What is known at that point is true in
every execution that gets there, as long as guards for truth pass on 1 only; hence no execution gets
beyond that guard.

* `Halts.contradicts`: a contradiction is between a guard and an integer that its argument is known
  to be.
* `execute_eq_of_fails`: an execution up to the first guard that fails.
* `guardContradiction_real`: a contradiction that is reported is one in every execution.
-/

namespace TraceOpt

/-! ### Where a contradiction is found -/

section

variable [Hashable Operand]
variable {base : Nat} {seen ops : List Operation} {made made' : Allocations} {s s' : Run}
  {ps : List Pass} {op : Operation} {e : Fault} {x : Operand} {xs : List Operand}

theorem Run.place_eq_error (h : s.place x = .error e) : ∃ o, e = .escapedVirtual o := by
  unfold Run.place at h
  cases hv : s.resolve x with
  | constant | operand =>
    rw [hv] at h
    cases h
  | blank | written =>
    rw [hv] at h
    cases h
    exact ⟨_, rfl⟩

theorem Run.mapM_place_eq_error (h : xs.mapM s.place = .error e) : ∃ o, e = .escapedVirtual o := by
  induction xs with
  | nil => cases h
  | cons x xs ih =>
    rw [List.mapM_cons] at h
    cases hx : s.place x with
    | error e' =>
      rw [hx] at h
      cases h
      exact Run.place_eq_error hx
    | ok y =>
      rw [hx] at h
      cases hxs : xs.mapM s.place with
      | error e' =>
        rw [hxs] at h
        cases h
        exact ih hxs
      | ok ys =>
        rw [hxs] at h
        cases h

/-- **A contradiction is between a guard and what its argument is known to be**, which is what the
argument holds if what is known is true. -/
theorem Halts.contradicts {id : OpId} {k : Kind} {n : Int64}
    (h : Halts op ps s s' made (.guardContradiction id k n)) :
    op.id = id ∧ op.kind = k ∧ k ∈ Kind.guards ∧ decide (n ≠ 0) ≠ k.passes ∧
      ∃ x, op.arg 0 = .ok x ∧
        ∀ w : Valuation, s.bindings.Valid → s.Sound w → w.Respects made → w.value x = n := by
  generalize he : Fault.guardContradiction id k n = e at h
  induction h with
  | emit hargs =>
    obtain ⟨o, ho⟩ := Run.mapM_place_eq_error hargs
    rw [ho] at he
    cases he
  | miscounted | exhausted => cases he
  | unchecked _ harg | unreceived _ harg | unstored _ _ _ harg =>
    rw [(Operation.arg_eq_error (by decide) harg).1] at he
    cases he
  | contradiction hk harg hx hn =>
    cases he
    exact ⟨rfl, rfl, hk, hn, _, harg, fun w _ hsound _ => hsound.value_of_constant hx⟩
  | unfolded _ _ ih | learn _ _ _ _ ih | unguarded _ _ ih => exact ih he
  | force _ hargs _ ih =>
    obtain ⟨hid, hkind, hk, hn, x, harg, hvalue⟩ := ih he
    refine ⟨hid, hkind, hk, hn, x, harg, fun w hs hsound hmade => ?_⟩
    obtain ⟨hmade, hmade'⟩ := List.forall_mem_append.1 hmade
    exact hvalue w (hargs.valid hs) (hargs.sound hs hsound hmade) hmade'

/-- Where an operation is held up, the invariant holds as before it. -/
theorem Halts.invariant (h : Halts op ps s s' made' e) (hs : Invariant base seen made s) :
    Invariant base seen (made ++ made') s' := by
  induction h generalizing made with
  | emit | miscounted | unchecked | contradiction | unreceived | unstored =>
    rw [List.append_nil]
    exact hs.congr rfl rfl rfl
  | unfolded _ _ ih | learn _ _ _ _ ih | unguarded _ _ ih => exact ih (hs.congr rfl rfl rfl)
  | exhausted _ _ hargs => exact hargs.invariant (hs.congr rfl rfl rfl)
  | force _ hargs _ ih =>
    rw [← List.append_assoc]
    exact ih (hargs.invariant (hs.congr rfl rfl rfl))

omit [Hashable Operand] in
/-- More operations of the trace are seen. -/
theorem Ledger.seeAll {nextId : OpId} (h : Ledger base seen made nextId)
    (hops : ∀ op ∈ ops, op.id.toNat < base) : Ledger base (seen ++ ops) made nextId := by
  induction ops generalizing seen with
  | nil => rwa [List.append_nil]
  | cons op ops ih =>
    obtain ⟨hop, hops⟩ := List.forall_mem_cons.1 hops
    rw [List.append_cons]
    exact ih (h.see hop) hops

end

/-! ### Executions that end at a guard -/

section

variable {w : Valuation} {before after : List Operation} {g : Operation}

/-- Operations that pass are all reached. -/
theorem Reached.forall_mem {P : Operation → Prop} (h : Reached w P (before ++ after))
    (hpass : ∀ op ∈ before, (op.step w).fails = false) : ∀ op ∈ before, P op := by
  induction before with
  | nil => exact fun _ hop => nomatch hop
  | cons op before ih =>
    obtain ⟨hop, hpass⟩ := List.forall_mem_cons.1 hpass
    exact List.forall_mem_cons.2 ⟨h.1, ih (h.2 hop) hpass⟩

/-- An execution up to the first guard that fails, under a valuation that holds all results. -/
theorem execute_eq_of_fails (h : ∀ op ∈ before ++ [g], w.Consistent op)
    (hpass : ∀ op ∈ before, (op.step w).fails = false) (hfails : (g.step w).fails = true)
    (after : List Operation) :
    execute w (before ++ g :: after) = ⟨(before ++ [g]).map (·.step w), some g.id⟩ := by
  induction before with
  | nil =>
    rw [List.nil_append, execute_cons (h g List.mem_cons_self), if_pos hfails]
    rfl
  | cons op before ih =>
    obtain ⟨hop, hpass⟩ := List.forall_mem_cons.1 hpass
    rw [List.cons_append, execute_cons (h op List.mem_cons_self), if_neg (by rw [hop]; decide),
      ih (fun d hd => h d (List.mem_cons_of_mem _ hd)) hpass]
    rfl

theorem Operation.mem_guards_of_fails (h : (g.step w).fails = true) : g.kind ∈ Kind.guards := by
  by_contra hk
  have hpass : (g.step w).fails = false := Step.fails_eq_false hk
  rw [h] at hpass
  cases hpass

/-- An execution in which not all of some operations pass ends at one of them. -/
theorem exists_execute_stops (h : ∀ op ∈ before, w.Consistent op)
    (hfails : ¬ ∀ op ∈ before, (op.step w).fails = false) (after : List Operation) :
    ∃ f ∈ before, f.kind ∈ Kind.guards ∧ (execute w (before ++ after)).stoppedAt? = some f.id ∧
      ∀ st ∈ (execute w (before ++ after)).steps, ∃ d ∈ before, st = d.step w := by
  have hfirst : ∃ f, before.find? (fun op => (op.step w).fails) = some f := by
    rw [← Option.isSome_iff_exists, List.find?_isSome]
    simpa using hfails
  obtain ⟨f, hfirst⟩ := hfirst
  obtain ⟨hf, front, back, rfl, hpass⟩ := List.find?_eq_some_iff_append.1 hfirst
  have hsub : ∀ op ∈ front ++ [f], op ∈ front ++ f :: back := by
    intro op hop
    rw [List.append_cons]
    exact List.mem_append_left _ hop
  have hexecute := execute_eq_of_fails (fun op hop => h op (hsub op hop))
    (fun op hop => by simpa using hpass op hop) hf (back ++ after)
  rw [List.append_assoc, List.cons_append, hexecute]
  refine ⟨f, hsub f (List.mem_append_right _ List.mem_cons_self), Operation.mem_guards_of_fails hf,
    rfl, fun st hst => ?_⟩
  obtain ⟨d, hd, rfl⟩ := List.mem_map.1 hst
  exact ⟨d, hsub d hd, rfl⟩

/-- If a guard fails on an integer whenever the operations before it pass, executions end at the
guard or before it. -/
theorem execute_ends {n : Int64} (h : ∀ op ∈ before ++ g :: after, w.Consistent op)
    (hne : ∀ d ∈ before, d.id ≠ g.id)
    (hg : (∀ op ∈ before, (op.step w).fails = false) →
      (g.step w).fails = true ∧ (g.step w).values = [n]) :
    (∃ f ∈ before ++ [g], f.kind ∈ Kind.guards ∧
        (execute w (before ++ g :: after)).stoppedAt? = some f.id) ∧
      ∀ st ∈ (execute w (before ++ g :: after)).steps, st.id = g.id → st.values = [n] := by
  by_cases hpass : ∀ op ∈ before, (op.step w).fails = false
  · obtain ⟨hfails, hvalues⟩ := hg hpass
    have h' : ∀ op ∈ before ++ [g], w.Consistent op := fun op hop =>
      h op (by rw [List.append_cons]; exact List.mem_append_left _ hop)
    rw [execute_eq_of_fails h' hpass hfails]
    refine ⟨⟨g, List.mem_append_right _ List.mem_cons_self, Operation.mem_guards_of_fails hfails,
      rfl⟩, fun st hst hid => ?_⟩
    obtain ⟨d, hd, rfl⟩ := List.mem_map.1 hst
    rcases List.mem_append.1 hd with hd | hd
    · exact absurd hid (hne d hd)
    · rw [List.mem_singleton.1 hd]
      exact hvalues
  · obtain ⟨f, hf, hguard, hstopped, hsteps⟩ := exists_execute_stops
      (fun op hop => h op (List.mem_append_left _ hop)) hpass (g :: after)
    refine ⟨⟨f, List.mem_append_left _ hf, hguard, hstopped⟩, fun st hst hid => ?_⟩
    obtain ⟨d, hd, rfl⟩ := hsteps st hst
    exact absurd hid (hne d hd)

end

/-- **A contradiction that is reported is real**: the guard is one of the trace, and whatever inputs
and results are, as long as guards for truth pass on 1 only, an execution ends at that guard or
before it; if it gets there, the guard checks the integer that is reported. -/
theorem guardContradiction_real [Hashable Operand] (passes : List Pass) (t : Trace)
    (ht : t.WellFormed) (id : OpId) (k : Kind) (n : Int64)
    (h : (optimizeWith passes t).result = .error (.guardContradiction id k n)) :
    ∃ before g after, t.ops = before ++ g :: after ∧ g.id = id ∧ g.kind = k ∧ k ∈ Kind.guards ∧
      ∀ w, (∀ st ∈ (execute w t.ops).steps, st.Boolean) →
        (∃ f ∈ before ++ [g], f.kind ∈ Kind.guards ∧
          (execute w t.ops).stoppedAt? = some f.id) ∧
        ∀ st ∈ (execute w t.ops).steps, st.id = id → st.values = [n] := by
  rcases optimizeWith_eq_error h with ⟨-, he⟩ | ⟨first, s', made, hfirst, hhalts⟩
  · cases he
  obtain ⟨before, g, after, s, made₁, made₂, hops, rfl, hfeeds, hhalts⟩ := hhalts
  obtain ⟨rfl, rfl, hk, hn, x, harg, hvalue⟩ := hhalts.contradicts
  refine ⟨before, g, after, hops, rfl, rfl, hk, fun w hboolean => ?_⟩
  have hcontinues := ht.continues fun op hop => Trace.lt_idBound hop
  have hbound : ∀ op ∈ g :: after, op.id.toNat < t.idBound := fun op hop =>
    Trace.lt_idBound (by rw [hops]; exact List.mem_append_right _ hop)
  have harity := ht.arity
  rw [hops] at hcontinues harity
  obtain ⟨hbefore, hrest⟩ := hcontinues.split
  obtain ⟨harity₁, harity₂⟩ := List.forall_mem_append.1 harity
  have hargs := (List.forall_mem_cons.1 harity₂).1.args_eq hk harg
  have hstart : Invariant t.idBound [] [] (t.startOf passes first) := invariant_start hfirst _
  have hinv := hfeeds.invariant hstart hbefore
  have hledger : Ledger t.idBound t.ops (made₁ ++ made₂) s'.nextId := by
    rw [hops]
    exact (hhalts.invariant (hinv.congr rfl rfl rfl)).ledger.seeAll hbound
  -- under the valuation at the end, nothing is left to compute
  have hconsistent := hledger.final_consistent ht w
  have hrespects := hledger.respects w
  rw [hledger.execute_final ht w] at hboolean ⊢
  rw [hops] at hconsistent hrespects hboolean ⊢
  generalize w.final (before ++ g :: after) (made₁ ++ made₂) = v at *
  obtain ⟨hrespects₁, hrespects₂⟩ := List.forall_mem_append.1 hrespects
  have hreached := (execute_forall_iff (reached_of_forall hconsistent)).1 hboolean
  refine execute_ends hconsistent hrest.next.id_ne fun hpass => ?_
  -- an execution that gets to the guard bears out all that is known there
  have hheeds : ∀ op ∈ before, s.Heeds v op := fun op hop =>
    (hreached.forall_mem hpass op hop).heeds (hpass op hop) s
  have hsound : s.Sound v := hfeeds.sound hstart hbefore harity₁ (Run.sound_start v first _)
    hrespects₁ (fun op hop => hconsistent op (List.mem_append_left _ hop)) hpass hheeds
  have hx : v.value x = n := hvalue v hinv.valid hsound hrespects₂
  constructor
  · rw [Operation.step, hargs, List.map_singleton, hx, Step.fails_guard hk, bne_iff_ne]
    exact hn
  · rw [← hx, Operation.step, hargs]
    rfl

/-- A guard on what is left of a comparison that an earlier guard has checked. -/
def hopeless : Trace :=
  ⟨1, [⟨0, .intLt, [.input 0, .const 10], some .int⟩,
    ⟨1, .guardTrue, [.op 0], none⟩,
    ⟨2, .intSub, [.op 0, .const 1], some .int⟩,
    ⟨3, .guardTrue, [.op 2], none⟩]⟩

/-- If the comparison holds, an execution gets to the second guard, and it checks 0. -/
theorem hopeless_stops :
    hopeless.WellFormed ∧
      (optimizeWith Level.release.passes hopeless).result =
        .error (.guardContradiction 3 .guardTrue 0) ∧
      ∃ w : Valuation, (∀ st ∈ (execute w hopeless.ops).steps, st.Boolean) ∧
        (∃ f ∈ hopeless.ops, f.kind ∈ Kind.guards ∧
          (execute w hopeless.ops).stoppedAt? = some f.id) ∧
        (⟨3, .guardTrue, [0]⟩ : Step) ∈ (execute w hopeless.ops).steps ∧
        ∀ st ∈ (execute w hopeless.ops).steps, st.id = 3 → st.values = [0] := by
  have hwellFormed : hopeless.WellFormed := by decide
  have hresult : (optimizeWith Level.release.passes hopeless).result =
      .error (.guardContradiction 3 .guardTrue 0) := by
    decide +kernel
  have hboolean : ∀ st ∈ (execute ⟨fun _ => 5, fun _ => 0⟩ hopeless.ops).steps, st.Boolean := by
    decide
  obtain ⟨before, g, after, hops, -, -, -, hreal⟩ := guardContradiction_real Level.release.passes
    hopeless hwellFormed 3 .guardTrue 0 hresult
  obtain ⟨⟨f, hf, hstops⟩, hvalues⟩ := hreal _ hboolean
  refine ⟨hwellFormed, hresult, _, hboolean, ⟨f, ?_, hstops⟩, by decide, hvalues⟩
  rw [hops, List.append_cons]
  exact List.mem_append_left _ hf

end TraceOpt
