import Mathlib.Tactic.Common
import TraceOpt.Optimization

/-!
# What becomes of an operation

An operation that is sent through built-in stages without a fault is folded, elided, postponed,
absorbed or emitted; on its way stages may force objects among its arguments, and on the way back
learn from a guard.  `Passage` lists these cases, each with its conditions and the state it leads
to, so that a property of the state has to be checked once for each of them.

* `forward_allocation`: a fresh allocation always gets through.
* `Passage.of_forward`: whatever gets through does so by a passage.
* `Feeds.of_optimizeWith`: an optimization that succeeds is a sequence of passages.
-/

namespace TraceOpt

/-! ### Effects on the state -/

namespace Run

variable [Hashable Operand] (s : Run)

/-- A stage is handed an operation. -/
def enter (p : Pass) (op : Operation) : Run :=
  (s.note (.entered p.name op)).count (·.record p.name)

theorem resolve_enter (p : Pass) (op : Operation) : (s.enter p op).resolve = s.resolve := rfl

/-- The operation goes to the output with other arguments. -/
def emit (op : Operation) (args : List Operand) : Run :=
  (s.note (.emitted op)).push { op with args }

/-- The operation is replaced by its result. -/
def fold (op : Operation) (n : Int64) : Run :=
  ((s.note (.folded op n)).bind op.result (.constant n)).count fun t =>
    { t with folded := t.folded + 1 }

/-- The guard is dropped because its argument is known. -/
def elide (op : Operation) (x : Operand) (n : Int64) : Run :=
  (s.note (.elided op x n)).count fun t => { t with guardsElided := t.guardsElided + 1 }

/-- The guard went through, and tells what its argument is. -/
def learn (op : Operation) (x : Operand) : Run :=
  (s.bind x (.constant (Kind.ofTruth op.kind.passes))).count fun t =>
    { t with guardsKept := t.guardsKept + 1 }

/-- The allocation is put off. -/
def postpone (op : Operation) : Run :=
  (s.bind op.result (.blank op.id)).count fun t =>
    { t with virtualsCreated := t.virtualsCreated + 1 }

/-- An object found by an operand, and the `new` operation it stands for, become a value. -/
def bindObject (origin : OpId) (found : Operand) (v : Value) : Run :=
  if found = .op origin then s.bind (.op origin) v else (s.bind (.op origin) v).bind found v

/-- The write is recorded on an object. -/
def absorb (op : Operation) (origin : OpId) (receiver : Operand) (stored : Value) : Run :=
  ((s.note (.absorbed op (.written origin stored))).bindObject origin receiver
    (.written origin stored)).count fun t =>
      { t with setfieldsAbsorbed := t.setfieldsAbsorbed + 1 }

/-- The allocation under the next unused id. -/
def allocation : Operation := ⟨s.nextId, .new, [], some .ref⟩

/-- An allocation goes through stages: the first that puts off allocations keeps it, and if there
is none it goes to the output. -/
def allocate (op : Operation) : List Pass → Run → Run
  | [], s => s.emit op []
  | .allocationSinking :: _, s => (s.enter .allocationSinking op).postpone op
  | p :: ps, s => allocate op ps (s.enter p op)

/-- The write pending on a value that is about to be allocated is lost. -/
def dropWrite (object : Value) (id : OpId) : Run :=
  match object.field? with
  | some field => s.note (.writeDropped object id field)
  | none => s

/-- The object found by an operand is allocated through stages. -/
def force (ps : List Pass) (x : Operand) (origin : OpId) : Run :=
  ((((allocate s.allocation ps { s with nextId := s.nextId + 1 }).dropWrite (s.resolve x)
    s.nextId).bindObject origin x (.operand s.allocation.result))).count fun t =>
      { t with virtualsForced := t.virtualsForced + 1 }

end Run

/-! ### What stages do -/

namespace Action

variable {α β : Type} {x : Action α} {f : α → Action β} {s s' : Run}

theorem bind_of_ok {a : α} (h : x s = .ok a s') : (x >>= f) s = f a s' := by
  change EStateM.bind x f s = _
  rw [EStateM.bind, h]

theorem bind_of_error {e : Fault} (h : x s = .error e s') : (x >>= f) s = .error e s' := by
  change EStateM.bind x f s = _
  rw [EStateM.bind, h]

theorem bind_eq_ok {b : β} (h : (x >>= f) s = .ok b s') :
    ∃ a s₁, x s = .ok a s₁ ∧ f a s₁ = .ok b s' := by
  cases hx : x s with
  | ok a s₁ => exact ⟨a, s₁, rfl, (bind_of_ok hx).symm.trans h⟩
  | error e s₁ =>
    rw [bind_of_error hx] at h
    cases h

end Action

section Stages

variable [Hashable Operand] (rest : Sink) (op : Operation) (s : Run)

/-- The first of several stages is handed an operation. -/
theorem Stage.forward_cons_enter (p : Pass) (ps : List Pass) :
    forward ((p :: ps).map Pass.stage) op s =
      p.stage.handle (forward (ps.map Pass.stage)) op (s.enter p op) := by
  rw [List.map_cons, forward_cons_apply, Pass.name_stage]
  rfl

theorem ConstantFolding.fold_apply :
    fold rest op s =
      if op.args.length = 2 then
        match result? op.kind (op.args.map s.resolve) with
        | some n => .ok () (s.fold op n)
        | none => rest op s
      else .error (.arity op.id op.kind 2 op.args.length) s := by
  unfold fold
  by_cases h : op.args.length = 2
  · rw [if_pos h, if_neg (not_not.2 h)]
    change (match result? op.kind (op.args.map s.resolve) with
      | some n => _
      | none => _ : Action Unit) s = _
    cases result? op.kind (op.args.map s.resolve) <;> rfl
  · rw [if_neg h, if_pos h]
    rfl

theorem GuardPropagation.propagate_apply :
    propagate rest op s =
      match op.arg 0 with
      | .error e => .error e s
      | .ok x =>
        match s.resolve x with
        | .constant n =>
          if decide (n ≠ 0) = op.kind.passes then .ok () (s.elide op x n)
          else .error (.guardContradiction op.id op.kind n) s
        | _ =>
          match rest op s with
          | .ok () s' => .ok () (s'.learn op x)
          | .error e s' => .error e s' := by
  unfold propagate
  cases op.arg 0 with
  | error e => rfl
  | ok x =>
    change (match s.resolve x with
      | .constant n => _
      | _ => _ : Action Unit) s = _
    dsimp only
    cases s.resolve x with
    | constant n =>
      by_cases h : decide (n ≠ 0) = op.kind.passes
      · simp only [ne_eq, h, not_true_eq_false, if_false, if_true]
        rfl
      · simp only [ne_eq, h, not_false_eq_true, if_false, if_true]
        rfl
    | _ =>
      dsimp only
      cases hrest : rest op s with
      | ok u s' => exact Action.bind_of_ok hrest
      | error e s' => exact Action.bind_of_error hrest

namespace AllocationSinking

theorem bindObject_apply (origin : OpId) (found : Operand) (v : Value) :
    bindObject origin found v s = .ok () (s.bindObject origin found v) := by
  unfold bindObject Run.bindObject
  by_cases h : found = .op origin
  · rw [if_pos h, if_neg (not_not.2 h)]
    rfl
  · rw [if_neg h, if_pos h]
    rfl

theorem absorb_apply :
    absorb rest op s =
      match op.arg 0 with
      | .error e => .error e s
      | .ok x =>
        match (s.resolve x).origin? with
        | none => forceArgs rest op s
        | some origin =>
          match op.arg 1 with
          | .error e => .error e s
          | .ok y => .ok () (s.absorb op origin x (s.resolve y)) := by
  unfold absorb
  cases op.arg 0 with
  | error e => rfl
  | ok x =>
    change (match (s.resolve x).origin? with
      | none => _
      | some origin => _ : Action Unit) s = _
    dsimp only
    cases (s.resolve x).origin? with
    | none => rfl
    | some origin =>
      cases op.arg 1 with
      | error e => rfl
      | ok y => exact Action.bind_of_ok (bindObject_apply (s.note _) origin x _)

/-- **A fresh allocation always gets through.** -/
theorem forward_allocation (ps : List Pass) (hk : op.kind = .new) (hargs : op.args = []) :
    Stage.forward (ps.map Pass.stage) op s = .ok () (Run.allocate op ps s) := by
  obtain ⟨id, kind, args, type⟩ := op
  obtain rfl : kind = .new := hk
  obtain rfl : args = [] := hargs
  induction ps generalizing s with
  | nil => rfl
  | cons p ps ih =>
    cases p with
    | constantFolding => exact ih (s.enter .constantFolding _)
    | guardPropagation => exact ih (s.enter .guardPropagation _)
    | allocationSinking => rfl

theorem force_apply (ps : List Pass) (x : Operand) (origin : OpId) :
    force (Stage.forward (ps.map Pass.stage)) x (s.resolve x) origin s =
      if s.nextId = OpId.last then .error .overflow s else .ok () (s.force ps x origin) := by
  unfold force
  by_cases h : s.nextId = OpId.last
  · rw [if_pos h]
    have hfresh : Action.fresh .new [] (some .ref) s = .error .overflow s := if_pos h
    exact Action.bind_of_error (Action.bind_of_error hfresh)
  · rw [if_neg h]
    have hfresh : Action.fresh .new [] (some .ref) s =
        .ok s.allocation { s with nextId := s.nextId + 1 } := if_neg h
    have hcreate : Stage.create (Stage.forward (ps.map Pass.stage)) .new [] (some .ref) s =
        .ok s.allocation (Run.allocate s.allocation ps { s with nextId := s.nextId + 1 }) :=
      (Action.bind_of_ok hfresh).trans <|
        Action.bind_of_ok (forward_allocation s.allocation _ ps rfl rfl)
    rw [Action.bind_of_ok hcreate, Run.force, Run.dropWrite]
    cases (s.resolve x).field? with
    | none => exact Action.bind_of_ok (bindObject_apply ..)
    | some field => exact Action.bind_of_ok (bindObject_apply ..)

end AllocationSinking

end Stages

/-! ### Passages -/

/-- The ids of fresh allocations, each with the id of the object that it allocates. -/
abbrev Allocations := List (OpId × OpId)

variable [Hashable Operand]

/-- Forcing operands one after another through stages leads from one state to another, with these
allocations. -/
inductive Forces (ps : List Pass) : List Operand → Run → Run → Allocations → Prop
  | nil {s : Run} : Forces ps [] s s []
  /-- The operand is no object, or one that has been allocated. -/
  | skip {x : Operand} {xs : List Operand} {s s' : Run} {made : Allocations}
      (hx : (s.resolve x).origin? = none) (h : Forces ps xs s s' made) :
      Forces ps (x :: xs) s s' made
  | force {x : Operand} {xs : List Operand} {origin : OpId} {s s' : Run} {made : Allocations}
      (hx : (s.resolve x).origin? = some origin) (hid : s.nextId ≠ OpId.last)
      (h : Forces ps xs (s.force ps x origin) s' made) :
      Forces ps (x :: xs) s s' ((s.nextId, origin) :: made)

/-- Sending an operation through stages leads from one state to another, with these
allocations. -/
inductive Passage (op : Operation) : List Pass → Run → Run → Allocations → Prop
  | emit {args : List Operand} {s : Run} (hargs : op.args.mapM s.place = .ok args) :
      Passage op [] s (s.emit op args) []
  | fold {ps : List Pass} {n : Int64} {s : Run} (hk : op.kind ∈ Kind.arithmetic)
      (hn : ConstantFolding.result? op.kind (op.args.map s.resolve) = some n) :
      Passage op (.constantFolding :: ps) s ((s.enter .constantFolding op).fold op n) []
  | unfolded {ps : List Pass} {s s' : Run} {made : Allocations}
      (hk : op.kind ∈ Kind.arithmetic → op.args.length = 2 ∧
        ConstantFolding.result? op.kind (op.args.map s.resolve) = none)
      (h : Passage op ps (s.enter .constantFolding op) s' made) :
      Passage op (.constantFolding :: ps) s s' made
  | elide {ps : List Pass} {x : Operand} {n : Int64} {s : Run} (hk : op.kind ∈ Kind.guards)
      (harg : op.arg 0 = .ok x) (hx : s.resolve x = .constant n)
      (hn : decide (n ≠ 0) = op.kind.passes) :
      Passage op (.guardPropagation :: ps) s ((s.enter .guardPropagation op).elide op x n) []
  | learn {ps : List Pass} {x : Operand} {s s' : Run} {made : Allocations}
      (hk : op.kind ∈ Kind.guards) (harg : op.arg 0 = .ok x)
      (hx : (s.resolve x).isConstant = false)
      (h : Passage op ps (s.enter .guardPropagation op) s' made) :
      Passage op (.guardPropagation :: ps) s (s'.learn op x) made
  | unguarded {ps : List Pass} {s s' : Run} {made : Allocations} (hk : op.kind ∉ Kind.guards)
      (h : Passage op ps (s.enter .guardPropagation op) s' made) :
      Passage op (.guardPropagation :: ps) s s' made
  | postpone {ps : List Pass} {s : Run} (hk : op.kind = .new) :
      Passage op (.allocationSinking :: ps) s ((s.enter .allocationSinking op).postpone op) []
  | absorb {ps : List Pass} {x y : Operand} {origin : OpId} {s : Run} (hk : op.kind = .setField)
      (harg : op.arg 0 = .ok x) (hx : (s.resolve x).origin? = some origin)
      (harg' : op.arg 1 = .ok y) :
      Passage op (.allocationSinking :: ps) s
        ((s.enter .allocationSinking op).absorb op origin x (s.resolve y)) []
  | force {ps : List Pass} {s s₁ s' : Run} {made made' : Allocations} (hk : op.kind ≠ .new)
      (hset : op.kind = .setField → ∃ x, op.arg 0 = .ok x ∧ (s.resolve x).origin? = none)
      (hargs : Forces ps op.args (s.enter .allocationSinking op) s₁ made)
      (h : Passage op ps s₁ s' made') :
      Passage op (.allocationSinking :: ps) s s' (made ++ made')

/-- Feeding operations to stages one after another leads from one state to another, with these
allocations. -/
inductive Feeds (ps : List Pass) : List Operation → Run → Run → Allocations → Prop
  | nil {s : Run} : Feeds ps [] s s []
  | cons {op : Operation} {ops : List Operation} {s s₁ s' : Run} {made made' : Allocations}
      (hop : Passage op ps (s.count fun t => { t with opsIn := t.opsIn + 1 }) s₁ made)
      (h : Feeds ps ops s₁ s' made') : Feeds ps (op :: ops) s s' (made ++ made')

variable {ps : List Pass} {op : Operation} {s s' : Run}

theorem Forces.of_forceAll {xs : List Operand}
    (h : AllocationSinking.forceAll (Stage.forward (ps.map Pass.stage)) xs s = .ok () s') :
    ∃ made, Forces ps xs s s' made := by
  induction xs generalizing s with
  | nil =>
    cases h
    exact ⟨[], .nil⟩
  | cons x xs ih =>
    unfold AllocationSinking.forceAll at h
    rw [Action.bind_of_ok (Action.resolve_apply s x)] at h
    cases hx : (s.resolve x).origin? with
    | none =>
      rw [hx] at h
      obtain ⟨made, hmade⟩ := ih h
      exact ⟨made, .skip hx hmade⟩
    | some origin =>
      rw [hx] at h
      obtain ⟨_, s₁, hforce, hrest⟩ := Action.bind_eq_ok h
      rw [AllocationSinking.force_apply] at hforce
      by_cases hid : s.nextId = OpId.last
      · rw [if_pos hid] at hforce
        cases hforce
      · rw [if_neg hid] at hforce
        cases hforce
        obtain ⟨made, hmade⟩ := ih hrest
        exact ⟨_, .force hx hid hmade⟩

namespace Passage

/-! Below, `ih` is what is to be shown for the stages that come after the first. -/

theorem of_constantFolding
    (ih : ∀ {s s'}, Stage.forward (ps.map Pass.stage) op s = .ok () s' →
      ∃ made, Passage op ps s s' made)
    (h : ConstantFolding.stage.handle (Stage.forward (ps.map Pass.stage)) op
      (s.enter .constantFolding op) = .ok () s') :
    ∃ made, Passage op (.constantFolding :: ps) s s' made := by
  rw [ConstantFolding.handle_eq] at h
  by_cases hk : op.kind ∈ Kind.arithmetic
  · rw [if_pos hk, ConstantFolding.fold_apply, Run.resolve_enter] at h
    split_ifs at h with hlength
    cases hn : ConstantFolding.result? op.kind (op.args.map s.resolve) with
    | some n =>
      rw [hn] at h
      cases h
      exact ⟨_, .fold hk hn⟩
    | none =>
      rw [hn] at h
      obtain ⟨made, hmade⟩ := ih h
      exact ⟨made, .unfolded (fun _ => ⟨hlength, hn⟩) hmade⟩
  · rw [if_neg hk] at h
    obtain ⟨made, hmade⟩ := ih h
    exact ⟨made, .unfolded (fun hk' => absurd hk' hk) hmade⟩

theorem of_guardPropagation
    (ih : ∀ {s s'}, Stage.forward (ps.map Pass.stage) op s = .ok () s' →
      ∃ made, Passage op ps s s' made)
    (h : GuardPropagation.stage.handle (Stage.forward (ps.map Pass.stage)) op
      (s.enter .guardPropagation op) = .ok () s') :
    ∃ made, Passage op (.guardPropagation :: ps) s s' made := by
  rw [GuardPropagation.handle_eq] at h
  by_cases hk : op.kind ∈ Kind.guards
  · rw [if_pos hk, GuardPropagation.propagate_apply, Run.resolve_enter] at h
    cases harg : op.arg 0 with
    | error e =>
      rw [harg] at h
      cases h
    | ok x =>
      rw [harg] at h
      dsimp only at h
      cases hx : s.resolve x with
      | constant n =>
        rw [hx] at h
        dsimp only at h
        split_ifs at h with hn
        cases h
        exact ⟨_, .elide hk harg hx hn⟩
      | _ =>
        rw [hx] at h
        dsimp only at h
        cases hrest : Stage.forward (ps.map Pass.stage) op (s.enter .guardPropagation op) with
        | ok _ s₁ =>
          rw [hrest] at h
          cases h
          obtain ⟨made, hmade⟩ := ih hrest
          exact ⟨made, .learn hk harg (by rw [hx]; rfl) hmade⟩
        | error e s₁ =>
          rw [hrest] at h
          cases h
  · rw [if_neg hk] at h
    obtain ⟨made, hmade⟩ := ih h
    exact ⟨made, .unguarded hk hmade⟩

theorem of_forceArgs
    (ih : ∀ {s s'}, Stage.forward (ps.map Pass.stage) op s = .ok () s' →
      ∃ made, Passage op ps s s' made)
    (hk : op.kind ≠ .new)
    (hset : op.kind = .setField → ∃ x, op.arg 0 = .ok x ∧ (s.resolve x).origin? = none)
    (h : AllocationSinking.forceArgs (Stage.forward (ps.map Pass.stage)) op
      (s.enter .allocationSinking op) = .ok () s') :
    ∃ made, Passage op (.allocationSinking :: ps) s s' made := by
  obtain ⟨_, s₁, hforces, hrest⟩ := Action.bind_eq_ok h
  obtain ⟨made, hmade⟩ := Forces.of_forceAll hforces
  obtain ⟨made', hmade'⟩ := ih hrest
  exact ⟨made ++ made', .force hk hset hmade hmade'⟩

theorem of_allocationSinking
    (ih : ∀ {s s'}, Stage.forward (ps.map Pass.stage) op s = .ok () s' →
      ∃ made, Passage op ps s s' made)
    (h : AllocationSinking.stage.handle (Stage.forward (ps.map Pass.stage)) op
      (s.enter .allocationSinking op) = .ok () s') :
    ∃ made, Passage op (.allocationSinking :: ps) s s' made := by
  rw [AllocationSinking.handle_eq] at h
  by_cases hnew : op.kind = .new
  · rw [hnew] at h
    cases h
    exact ⟨_, .postpone hnew⟩
  · by_cases hset : op.kind = .setField
    · rw [hset] at h
      dsimp only at h
      rw [AllocationSinking.absorb_apply, Run.resolve_enter] at h
      cases harg : op.arg 0 with
      | error e =>
        rw [harg] at h
        cases h
      | ok x =>
        rw [harg] at h
        dsimp only at h
        cases hx : (s.resolve x).origin? with
        | none =>
          rw [hx] at h
          exact of_forceArgs ih hnew (fun _ => ⟨x, harg, hx⟩) h
        | some origin =>
          rw [hx] at h
          cases harg' : op.arg 1 with
          | error e =>
            rw [harg'] at h
            cases h
          | ok y =>
            rw [harg'] at h
            cases h
            exact ⟨_, .absorb hset harg hx harg'⟩
    · refine of_forceArgs ih hnew (fun h' => absurd h' hset) ?_
      rw [← h]
      cases hkind : op.kind with
      | new => exact absurd hkind hnew
      | setField => exact absurd hkind hset
      | _ => rfl

/-- **What gets through stages does so by a passage.** -/
theorem of_forward (h : Stage.forward (ps.map Pass.stage) op s = .ok () s') :
    ∃ made, Passage op ps s s' made := by
  induction ps generalizing s s' with
  | nil =>
    rw [List.map_nil, Stage.forward_nil, Action.emit] at h
    cases hargs : op.args.mapM s.place with
    | ok args =>
      rw [hargs] at h
      cases h
      exact ⟨_, .emit hargs⟩
    | error e =>
      rw [hargs] at h
      cases h
  | cons p ps ih =>
    rw [Stage.forward_cons_enter] at h
    cases p with
    | constantFolding => exact of_constantFolding ih h
    | guardPropagation => exact of_guardPropagation ih h
    | allocationSinking => exact of_allocationSinking ih h

end Passage

theorem Feeds.of_feed {ops : List Operation} (h : feed (ps.map Pass.stage) ops s = .ok () s') :
    ∃ made, Feeds ps ops s s' made := by
  induction ops generalizing s with
  | nil =>
    cases h
    exact ⟨_, .nil⟩
  | cons op ops ih =>
    rw [feed, Action.bind_of_ok (Action.count_apply ..)] at h
    obtain ⟨_, s₁, hop, hrest⟩ := Action.bind_eq_ok h
    obtain ⟨made, hmade⟩ := Passage.of_forward hop
    obtain ⟨made', hmade'⟩ := ih hrest
    exact ⟨made ++ made', .cons hmade hmade'⟩

/-- **An optimization that succeeds feeds the whole trace**, from a state in which nothing is
known, and gives what is in the output at the end. -/
theorem Feeds.of_optimizeWith {t out : Trace} {tally : Tally}
    (h : (optimizeWith ps t).result = .ok (out, tally)) :
    ∃ id log s made, t.nextFreeId? = some id ∧
      Feeds ps t.ops { Run.start id with log } s made ∧
      out = { t with ops := s.output.toList } := by
  unfold optimizeWith optimize at h
  cases hid : t.nextFreeId? with
  | none =>
    rw [hid] at h
    cases h
  | some id =>
    rw [hid] at h
    dsimp only at h
    split at h
    · cases h
    · next s hfeed =>
      cases h
      obtain ⟨made, hmade⟩ := Feeds.of_feed hfeed
      exact ⟨id, _, s, made, rfl, hmade, rfl⟩

end TraceOpt
