import TraceOpt.Proofs.Optimization.Meaning
import TraceOpt.Trace.Hash

/-!
# Integers that an optimization knows

After some operations of a well-formed trace have gone through stages, some operands are known to
be integers.  In an execution that passes the guards among these operations, what is known is true
exactly if every operand of a guard for truth that is known to be 1 is 1: a guard for truth passes
on every integer but 0, and its operand is taken to be 1 from then on.

* `Feeds.sound`: feeding operations keeps states sound.
* `constants_hold_iff`: when the known integers are true.
-/

namespace TraceOpt

section

variable [Hashable Operand]
variable {base : Nat} {seen ops : List Operation} {made made' : Allocations} {s s' : Run}
  {ps : List Pass} {w : Valuation}

/-- **Feeding operations keeps states sound**, as long as no guard fails and guards for truth have
shown what is taken from them. -/
theorem Feeds.sound (h : Feeds ps ops s s' made') (hs : Invariant base seen made s)
    (hops : Continues base seen ops) (harity : ∀ op ∈ ops, op.HasArity) (hsound : s.Sound w)
    (hmade : w.Respects made') (hconsistent : ∀ op ∈ ops, w.Consistent op)
    (hpass : ∀ op ∈ ops, (op.step w).fails = false) (hheeds : ∀ op ∈ ops, s'.Heeds w op) :
    s'.Sound w := by
  induction h generalizing seen made with
  | nil => exact hsound
  | @cons op ops s s₁ s' made₁ made₂ hop hrest ih =>
    obtain ⟨harity₁, harity⟩ := List.forall_mem_cons.1 harity
    obtain ⟨hmade₁, hmade₂⟩ := List.forall_mem_append.1 hmade
    obtain ⟨hconsistent₁, hconsistent⟩ := List.forall_mem_cons.1 hconsistent
    obtain ⟨hpass₁, hpass⟩ := List.forall_mem_cons.1 hpass
    obtain ⟨hheeds₁, hheeds⟩ := List.forall_mem_cons.1 hheeds
    have hs' : Invariant base seen made (s.count fun t => { t with opsIn := t.opsIn + 1 }) :=
      hs.congr rfl rfl rfl
    have hs₁ := hop.invariant hs' hops.next
    -- what was taken from the guard at first is still taken at the end
    have hheeds₁ : s₁.Heeds w op := fun hk x hx h1 =>
      hheeds₁ hk x hx (hrest.find?_constant hs₁ hops.rest h1)
    have hsound₁ := hop.sound hs'.valid hsound hmade₁ harity₁ hconsistent₁ hpass₁ hheeds₁
    exact ih hs₁ hops.rest harity hsound₁ hmade₂ hconsistent hpass hheeds

end

/-- **When the known integers are true**: after the first operations of a trace, in an execution in
which none of them is a guard that fails, every operand that is known to be an integer is that
integer if and only if every operand of a guard for truth that is known to be 1 is 1. -/
theorem constants_hold_iff [Hashable Operand] (passes : List Pass) (t : Trace) (ht : t.WellFormed)
    (first : OpId) (hfirst : t.nextFreeId? = some first) (log : Array Event) (i : Nat) (s : Run)
    (h : feed (passes.map Pass.stage) (t.ops.take i) { Run.start first with log } = .ok () s)
    (w : Valuation) (hw : (execute w (t.ops.take i)).stoppedAt? = none) :
    (∀ x n, s.bindings.find? x = some (.constant n) →
        (w.afterAll (t.ops.take i)).value x = n) ↔
      ∀ g ∈ t.ops.take i, g.kind = .guardTrue → ∀ x ∈ g.args,
        s.bindings.find? x = some (.constant 1) → (w.afterAll (t.ops.take i)).value x = 1 := by
  constructor
  · exact fun hall g _ _ x _ hx => hall x 1 hx
  · intro hguards x n hx
    obtain ⟨made, hfeeds⟩ := Feeds.of_feed h
    have ht' := ht.take i
    have hstart := invariant_start hfirst log
    have hcontinues : Continues t.idBound [] (t.ops.take i) :=
      ht'.continues fun op hop => Trace.lt_idBound (List.mem_of_mem_take hop)
    have hinv := hfeeds.invariant hstart hcontinues
    have hledger : Ledger t.idBound (t.ops.take i) made s.nextId := hinv.ledger
    have hconsistent := hledger.final_consistent ht' w
    rw [hledger.execute_final ht' w, execute_stoppedAt?_eq_none hconsistent] at hw
    have hheeds : ∀ g ∈ t.ops.take i, s.Heeds (w.final (t.ops.take i) made) g := by
      intro g hg hk y hy h1
      rw [hledger.final_value w (ht'.in_scope.definedIn hg hy)]
      exact hguards g hg hk y hy h1
    have hsound := hfeeds.sound hstart hcontinues ht'.arity (Run.sound_start _ first log)
      (hledger.respects w) hconsistent hw hheeds
    rw [← hledger.final_value w ((hinv.admissible x _ hx).constant rfl)]
    exact (hsound x _ hx).symm

/-- An input is checked and then used. -/
def guardedSum : Trace :=
  ⟨1, [⟨0, .guardTrue, [.input 0], none⟩, ⟨1, .intAdd, [.input 0, .const 1], some .int⟩]⟩

/-- If the input is 1, what is learnt from the guard and computed from it is true. -/
theorem guardedSum_constants_hold :
    guardedSum.WellFormed ∧ guardedSum.nextFreeId? = some 2 ∧
      ∃ s, feed (Level.release.passes.map Pass.stage) (guardedSum.ops.take 2)
          { Run.start 2 with log := #[] } = .ok () s ∧
        s.bindings.find? (.op 1) = some (.constant 2) ∧
        ∃ w : Valuation, (execute w (guardedSum.ops.take 2)).stoppedAt? = none ∧
          ∀ x n, s.bindings.find? x = some (.constant n) →
            (w.afterAll (guardedSum.ops.take 2)).value x = n := by
  refine ⟨by decide, rfl, _, rfl, rfl, ⟨fun _ => 1, fun _ => 0⟩, rfl, ?_⟩
  refine (constants_hold_iff Level.release.passes guardedSum (by decide) 2 rfl #[] 2 _ rfl _
    rfl).2 ?_
  intro g hg hk x hx _
  have hinput : ∀ g ∈ guardedSum.ops.take 2, g.kind = .guardTrue → ∀ x ∈ g.args, x = .input 0 := by
    decide
  rw [hinput g hg hk x hx]
  rfl

/-- **A known integer may be wrong**: an input that a guard for truth lets pass is taken to be 1,
and may be 5. -/
theorem not_constants_hold :
    ¬ ∀ (passes : List Pass) (t : Trace) (first : OpId) (log : Array Event) (i : Nat) (s : Run)
      (w : Valuation), t.WellFormed → t.nextFreeId? = some first →
      feed (passes.map Pass.stage) (t.ops.take i) { Run.start first with log } = .ok () s →
      (execute w (t.ops.take i)).stoppedAt? = none →
      ∀ x n, s.bindings.find? x = some (.constant n) →
        (w.afterAll (t.ops.take i)).value x = n := by
  intro h
  have hfive := h [.guardPropagation] guardedSum 2 #[] 1 _ ⟨fun _ => 5, fun _ => 0⟩ (by decide)
    rfl rfl rfl (.input 0) 1 rfl
  exact absurd hfive (by decide)

end TraceOpt
