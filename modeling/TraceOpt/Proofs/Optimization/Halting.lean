import TraceOpt.Proofs.Optimization.Passage

/-!
# Where an optimization ends in a fault

An operation that does not get through built-in stages is held up at one of them, after those before
it have sent it on and perhaps have forced objects among its arguments.  `Halts` lists the places
where this happens, each with its conditions, the allocations made before and the fault.

* `Halts.of_forward`: whatever does not get through is held up.
* `optimizeWith_eq_error`: an optimization that fails feeds the operations before one, and is held
  up at that one.
-/

namespace TraceOpt

/-- Sending an operation through stages leads from one state to another, with these allocations,
and ends there in a fault. -/
inductive Halts [Hashable Operand] (op : Operation) :
    List Pass → Run → Run → Allocations → Fault → Prop
  /-- An argument is an object that has not been allocated. -/
  | emit {s : Run} {e : Fault} (hargs : op.args.mapM s.place = .error e) : Halts op [] s s [] e
  | miscounted {ps : List Pass} {s : Run} (hk : op.kind ∈ Kind.arithmetic)
      (hlength : op.args.length ≠ 2) :
      Halts op (.constantFolding :: ps) s (s.enter .constantFolding op) []
        (.arity op.id op.kind 2 op.args.length)
  | unfolded {ps : List Pass} {s s' : Run} {made : Allocations} {e : Fault}
      (hk : op.kind ∈ Kind.arithmetic → op.args.length = 2 ∧
        ConstantFolding.result? op.kind (op.args.map s.resolve) = none)
      (h : Halts op ps (s.enter .constantFolding op) s' made e) :
      Halts op (.constantFolding :: ps) s s' made e
  /-- A guard has nothing to check. -/
  | unchecked {ps : List Pass} {s : Run} {e : Fault} (hk : op.kind ∈ Kind.guards)
      (harg : op.arg 0 = .error e) :
      Halts op (.guardPropagation :: ps) s (s.enter .guardPropagation op) [] e
  | contradiction {ps : List Pass} {s : Run} {x : Operand} {n : Int64}
      (hk : op.kind ∈ Kind.guards) (harg : op.arg 0 = .ok x) (hx : s.resolve x = .constant n)
      (hn : decide (n ≠ 0) ≠ op.kind.passes) :
      Halts op (.guardPropagation :: ps) s (s.enter .guardPropagation op) []
        (.guardContradiction op.id op.kind n)
  | learn {ps : List Pass} {s s' : Run} {x : Operand} {made : Allocations} {e : Fault}
      (hk : op.kind ∈ Kind.guards) (harg : op.arg 0 = .ok x)
      (hx : (s.resolve x).isConstant = false)
      (h : Halts op ps (s.enter .guardPropagation op) s' made e) :
      Halts op (.guardPropagation :: ps) s s' made e
  | unguarded {ps : List Pass} {s s' : Run} {made : Allocations} {e : Fault}
      (hk : op.kind ∉ Kind.guards) (h : Halts op ps (s.enter .guardPropagation op) s' made e) :
      Halts op (.guardPropagation :: ps) s s' made e
  /-- A write has no receiver. -/
  | unreceived {ps : List Pass} {s : Run} {e : Fault} (hk : op.kind = .setField)
      (harg : op.arg 0 = .error e) :
      Halts op (.allocationSinking :: ps) s (s.enter .allocationSinking op) [] e
  /-- A write to an object that has not been allocated stores nothing. -/
  | unstored {ps : List Pass} {s : Run} {x : Operand} {origin : OpId} {e : Fault}
      (hk : op.kind = .setField) (harg : op.arg 0 = .ok x)
      (hx : (s.resolve x).origin? = some origin) (harg' : op.arg 1 = .error e) :
      Halts op (.allocationSinking :: ps) s (s.enter .allocationSinking op) [] e
  /-- There is no id left for an object among the arguments. -/
  | exhausted {ps : List Pass} {s s' : Run} {xs ys : List Operand} {x : Operand} {origin : OpId}
      {made : Allocations} (hk : op.kind ≠ .new) (hsplit : op.args = xs ++ x :: ys)
      (hargs : Forces ps xs (s.enter .allocationSinking op) s' made)
      (hx : (s'.resolve x).origin? = some origin) (hid : s'.nextId = OpId.last) :
      Halts op (.allocationSinking :: ps) s s' made .overflow
  | force {ps : List Pass} {s s₁ s' : Run} {made made' : Allocations} {e : Fault}
      (hk : op.kind ≠ .new)
      (hargs : Forces ps op.args (s.enter .allocationSinking op) s₁ made)
      (h : Halts op ps s₁ s' made' e) : Halts op (.allocationSinking :: ps) s s' (made ++ made') e

/-! ### One operation -/

theorem Action.bind_eq_error {α β : Type} {x : Action α} {f : α → Action β} {s s' : Run}
    {e : Fault} (h : (x >>= f) s = .error e s') :
    x s = .error e s' ∨ ∃ a s₁, x s = .ok a s₁ ∧ f a s₁ = .error e s' := by
  cases hx : x s with
  | ok a s₁ => exact Or.inr ⟨a, s₁, rfl, (bind_of_ok hx).symm.trans h⟩
  | error e₁ s₁ =>
    rw [bind_of_error hx] at h
    cases h
    exact Or.inl rfl

section

variable [Hashable Operand]
variable {ps : List Pass} {op : Operation} {s s' : Run} {e : Fault}

/-- Forcing operands fails for want of an id only. -/
theorem Forces.of_forceAll_error {xs : List Operand}
    (h : AllocationSinking.forceAll (Stage.forward (ps.map Pass.stage)) xs s = .error e s') :
    e = .overflow ∧ ∃ ys x zs origin made, xs = ys ++ x :: zs ∧ Forces ps ys s s' made ∧
      (s'.resolve x).origin? = some origin ∧ s'.nextId = OpId.last := by
  induction xs generalizing s with
  | nil => cases h
  | cons x xs ih =>
    unfold AllocationSinking.forceAll at h
    rw [Action.bind_of_ok (Action.resolve_apply s x)] at h
    cases hx : (s.resolve x).origin? with
    | none =>
      rw [hx] at h
      obtain ⟨he, ys, y, zs, origin, made, rfl, hforces, hlast⟩ := ih h
      exact ⟨he, x :: ys, y, zs, origin, made, rfl, .skip hx hforces, hlast⟩
    | some origin =>
      rw [hx] at h
      rcases Action.bind_eq_error h with hforce | ⟨_, s₁, hforce, hrest⟩
      · rw [AllocationSinking.force_apply] at hforce
        split_ifs at hforce with hid
        cases hforce
        exact ⟨rfl, [], x, xs, origin, [], rfl, .nil, hx, hid⟩
      · rw [AllocationSinking.force_apply] at hforce
        split_ifs at hforce with hid
        cases hforce
        obtain ⟨he, ys, y, zs, origin', made, rfl, hforces, hlast⟩ := ih hrest
        exact ⟨he, x :: ys, y, zs, origin', _, rfl, .force hx hid hforces, hlast⟩

namespace Halts

/-! Below, `ih` is what is to be shown for the stages that come after the first. -/

theorem of_constantFolding
    (ih : ∀ {s}, Stage.forward (ps.map Pass.stage) op s = .error e s' →
      ∃ made, Halts op ps s s' made e)
    (h : ConstantFolding.stage.handle (Stage.forward (ps.map Pass.stage)) op
      (s.enter .constantFolding op) = .error e s') :
    ∃ made, Halts op (.constantFolding :: ps) s s' made e := by
  rw [ConstantFolding.handle_eq] at h
  by_cases hk : op.kind ∈ Kind.arithmetic
  · rw [if_pos hk, ConstantFolding.fold_apply, Run.resolve_enter] at h
    by_cases hlength : op.args.length = 2
    · rw [if_pos hlength] at h
      cases hn : ConstantFolding.result? op.kind (op.args.map s.resolve) with
      | some n =>
        rw [hn] at h
        cases h
      | none =>
        rw [hn] at h
        obtain ⟨made, hmade⟩ := ih h
        exact ⟨made, .unfolded (fun _ => ⟨hlength, hn⟩) hmade⟩
    · rw [if_neg hlength] at h
      cases h
      exact ⟨[], .miscounted hk hlength⟩
  · rw [if_neg hk] at h
    obtain ⟨made, hmade⟩ := ih h
    exact ⟨made, .unfolded (fun hk' => absurd hk' hk) hmade⟩

theorem of_guardPropagation
    (ih : ∀ {s}, Stage.forward (ps.map Pass.stage) op s = .error e s' →
      ∃ made, Halts op ps s s' made e)
    (h : GuardPropagation.stage.handle (Stage.forward (ps.map Pass.stage)) op
      (s.enter .guardPropagation op) = .error e s') :
    ∃ made, Halts op (.guardPropagation :: ps) s s' made e := by
  rw [GuardPropagation.handle_eq] at h
  by_cases hk : op.kind ∈ Kind.guards
  · rw [if_pos hk, GuardPropagation.propagate_apply, Run.resolve_enter] at h
    cases harg : op.arg 0 with
    | error e' =>
      rw [harg] at h
      cases h
      exact ⟨[], .unchecked hk harg⟩
    | ok x =>
      rw [harg] at h
      dsimp only at h
      cases hx : s.resolve x with
      | constant n =>
        rw [hx] at h
        dsimp only at h
        split_ifs at h with hn
        cases h
        exact ⟨[], .contradiction hk harg hx hn⟩
      | _ =>
        rw [hx] at h
        dsimp only at h
        cases hrest : Stage.forward (ps.map Pass.stage) op (s.enter .guardPropagation op) with
        | ok _ s₁ =>
          rw [hrest] at h
          cases h
        | error e' s₁ =>
          rw [hrest] at h
          cases h
          obtain ⟨made, hmade⟩ := ih hrest
          exact ⟨made, .learn hk harg (by rw [hx]; rfl) hmade⟩
  · rw [if_neg hk] at h
    obtain ⟨made, hmade⟩ := ih h
    exact ⟨made, .unguarded hk hmade⟩

theorem of_forceArgs
    (ih : ∀ {s}, Stage.forward (ps.map Pass.stage) op s = .error e s' →
      ∃ made, Halts op ps s s' made e)
    (hk : op.kind ≠ .new)
    (h : AllocationSinking.forceArgs (Stage.forward (ps.map Pass.stage)) op
      (s.enter .allocationSinking op) = .error e s') :
    ∃ made, Halts op (.allocationSinking :: ps) s s' made e := by
  rcases Action.bind_eq_error h with hforces | ⟨_, s₁, hforces, hrest⟩
  · obtain ⟨rfl, xs, x, ys, origin, made, hsplit, hmade, hx, hid⟩ :=
      Forces.of_forceAll_error hforces
    exact ⟨made, .exhausted hk hsplit hmade hx hid⟩
  · obtain ⟨made, hmade⟩ := Forces.of_forceAll hforces
    obtain ⟨made', hmade'⟩ := ih hrest
    exact ⟨made ++ made', .force hk hmade hmade'⟩

theorem of_allocationSinking
    (ih : ∀ {s}, Stage.forward (ps.map Pass.stage) op s = .error e s' →
      ∃ made, Halts op ps s s' made e)
    (h : AllocationSinking.stage.handle (Stage.forward (ps.map Pass.stage)) op
      (s.enter .allocationSinking op) = .error e s') :
    ∃ made, Halts op (.allocationSinking :: ps) s s' made e := by
  rw [AllocationSinking.handle_eq] at h
  by_cases hnew : op.kind = .new
  · rw [hnew] at h
    cases h
  · by_cases hset : op.kind = .setField
    · rw [hset] at h
      dsimp only at h
      rw [AllocationSinking.absorb_apply, Run.resolve_enter] at h
      cases harg : op.arg 0 with
      | error e' =>
        rw [harg] at h
        cases h
        exact ⟨[], .unreceived hset harg⟩
      | ok x =>
        rw [harg] at h
        dsimp only at h
        cases hx : (s.resolve x).origin? with
        | none =>
          rw [hx] at h
          exact of_forceArgs ih hnew h
        | some origin =>
          rw [hx] at h
          cases harg' : op.arg 1 with
          | error e' =>
            rw [harg'] at h
            cases h
            exact ⟨[], .unstored hset harg hx harg'⟩
          | ok y =>
            rw [harg'] at h
            cases h
    · refine of_forceArgs ih hnew ?_
      rw [← h]
      cases hkind : op.kind with
      | new => exact absurd hkind hnew
      | setField => exact absurd hkind hset
      | _ => rfl

/-- **What does not get through stages is held up at one of them.** -/
theorem of_forward (h : Stage.forward (ps.map Pass.stage) op s = .error e s') :
    ∃ made, Halts op ps s s' made e := by
  induction ps generalizing s with
  | nil =>
    rw [List.map_nil, Stage.forward_nil, Action.emit] at h
    cases hargs : op.args.mapM s.place with
    | ok args =>
      rw [hargs] at h
      cases h
    | error e' =>
      rw [hargs] at h
      cases h
      exact ⟨[], .emit hargs⟩
  | cons p ps ih =>
    rw [Stage.forward_cons_enter] at h
    cases p with
    | constantFolding => exact of_constantFolding ih h
    | guardPropagation => exact of_guardPropagation ih h
    | allocationSinking => exact of_allocationSinking ih h

end Halts

/-! ### Whole traces -/

/-- One more operation is fed to the first stage. -/
def Run.next (s : Run) : Run := s.count fun t => { t with opsIn := t.opsIn + 1 }

/-- Feeding operations to stages leads from one state to another, with these allocations, and ends
there in a fault at one of the operations. -/
def HaltsAmong (ps : List Pass) (ops : List Operation) (s s' : Run) (made : Allocations)
    (e : Fault) : Prop :=
  ∃ before op after s₁ made₁ made₂, ops = before ++ op :: after ∧ made = made₁ ++ made₂ ∧
    Feeds ps before s s₁ made₁ ∧ Halts op ps s₁.next s' made₂ e

theorem HaltsAmong.of_feed {ops : List Operation}
    (h : feed (ps.map Pass.stage) ops s = .error e s') :
    ∃ made, HaltsAmong ps ops s s' made e := by
  induction ops generalizing s with
  | nil => cases h
  | cons op ops ih =>
    rw [feed, Action.bind_of_ok (Action.count_apply ..)] at h
    rcases Action.bind_eq_error h with hop | ⟨_, s₁, hop, hrest⟩
    · obtain ⟨made, hmade⟩ := Halts.of_forward hop
      exact ⟨made, [], op, ops, s, [], made, rfl, rfl, .nil, hmade⟩
    · obtain ⟨made, hmade⟩ := Passage.of_forward hop
      obtain ⟨_, before, op', after, s₂, made₁, made₂, rfl, rfl, hfeeds, hhalts⟩ := ih hrest
      exact ⟨_, op :: before, op', after, s₂, made ++ made₁, made₂, rfl, rfl,
        .cons hmade hfeeds, hhalts⟩

end

/-- The state in which nothing is known of a trace that is to go through stages. -/
def Trace.startOf [Hashable Operand] (t : Trace) (ps : List Pass) (first : OpId) : Run :=
  { Run.start first with log := #[.started t.ops.length ((ps.map Pass.stage).map (·.name))] }

variable [Hashable Operand]

/-- What an optimization gives is what feeding the trace leads to. -/
theorem optimizeWith_eq (ps : List Pass) (t : Trace) :
    (optimizeWith ps t).result =
      match t.nextFreeId? with
      | none => .error .overflow
      | some first =>
        match feed (ps.map Pass.stage) t.ops (t.startOf ps first) with
        | .error e _ => .error e
        | .ok _ s =>
          .ok ({ t with ops := s.output.toList }, { s.tally with opsOut := s.output.size }) := by
  unfold optimizeWith optimize
  cases t.nextFreeId? with
  | none => rfl
  | some first =>
    dsimp only
    change (match feed (ps.map Pass.stage) t.ops (t.startOf ps first) with
      | .error e s => _
      | .ok _ s => _ : Report).result = _
    cases feed (ps.map Pass.stage) t.ops (t.startOf ps first) <;> rfl

section

variable {ps : List Pass} {t out : Trace} {tally : Tally} {e : Fault}

theorem optimizeWith_eq_ok (h : (optimizeWith ps t).result = .ok (out, tally)) :
    ∃ first s made, t.nextFreeId? = some first ∧ Feeds ps t.ops (t.startOf ps first) s made ∧
      out = { t with ops := s.output.toList } ∧
      tally = { s.tally with opsOut := s.output.size } := by
  rw [optimizeWith_eq] at h
  cases hfirst : t.nextFreeId? with
  | none =>
    rw [hfirst] at h
    cases h
  | some first =>
    rw [hfirst] at h
    dsimp only at h
    cases hfeed : feed (ps.map Pass.stage) t.ops (t.startOf ps first) with
    | error e s =>
      rw [hfeed] at h
      cases h
    | ok _ s =>
      rw [hfeed] at h
      cases h
      obtain ⟨made, hmade⟩ := Feeds.of_feed hfeed
      exact ⟨first, s, made, rfl, hmade, rfl, rfl⟩

/-- **An optimization that fails** has no id to start with, or is held up at an operation. -/
theorem optimizeWith_eq_error (h : (optimizeWith ps t).result = .error e) :
    (t.nextFreeId? = none ∧ e = .overflow) ∨
      ∃ first s made, t.nextFreeId? = some first ∧
        HaltsAmong ps t.ops (t.startOf ps first) s made e := by
  rw [optimizeWith_eq] at h
  cases hfirst : t.nextFreeId? with
  | none =>
    rw [hfirst] at h
    cases h
    exact Or.inl ⟨rfl, rfl⟩
  | some first =>
    rw [hfirst] at h
    dsimp only at h
    cases hfeed : feed (ps.map Pass.stage) t.ops (t.startOf ps first) with
    | error e' s =>
      rw [hfeed] at h
      cases h
      obtain ⟨made, hmade⟩ := HaltsAmong.of_feed hfeed
      exact Or.inr ⟨first, s, made, rfl, hmade⟩
    | ok _ s =>
      rw [hfeed] at h
      cases h

end

end TraceOpt
