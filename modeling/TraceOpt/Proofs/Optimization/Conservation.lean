import TraceOpt.Proofs.Optimization.Sinking

/-!
# Every operation is accounted for

An operation that goes through stages is folded, elided, postponed, absorbed or emitted, and a tally
counts which of these it was.  The same holds of the allocations that stages make on the way, so
that the counters balance: what went in and what was made is what came out and what was settled.

* `Balanced`: how counters change with the operations fed and the allocations made.
* `Passage.balanced`, `Feeds.balanced`: one operation, and a whole trace.
* `Feeds.virtualsCreated`: with one stage that puts off allocations, it puts off those of the trace.
-/

namespace TraceOpt

/-- The operations that stages have settled. -/
def Tally.settled (t : Tally) : Nat :=
  t.folded + t.guardsElided + t.virtualsCreated + t.setfieldsAbsorbed

/-- The operations of which it is known what has become of them. -/
def Run.accounted (s : Run) : Nat := s.output.size + s.tally.settled

/-- How counters change from one state to another, when a number of operations is fed to the first
stage, a number of operations gets through the stages, and allocations are made. -/
structure Balanced (fed through : Nat) (made : Allocations) (s s' : Run) : Prop where
  /-- Operations that are fed are counted. -/
  opsIn : s'.tally.opsIn = s.tally.opsIn + fed
  /-- Operations and allocations are settled or emitted. -/
  accounted : s'.accounted = s.accounted + through + made.length
  /-- Allocations are counted. -/
  virtualsForced : s'.tally.virtualsForced = s.tally.virtualsForced + made.length

section

variable {ps : List Pass} {op : Operation} {ops : List Operation} {xs : List Operand}
  {made made' : Allocations} {s s₁ s' : Run} {fed fed' through through' : Nat}

namespace Run

variable [Hashable Operand]

@[simp] theorem tally_bindObject (s : Run) (origin : OpId) (x : Operand) (v : Value) :
    (s.bindObject origin x v).tally = s.tally := by
  unfold bindObject
  split_ifs <;> rfl

omit [Hashable Operand] in
@[simp] theorem tally_dropWrite (s : Run) (object : Value) (id : OpId) :
    (s.dropWrite object id).tally = s.tally := by
  unfold dropWrite
  split <;> rfl

theorem tally_absorb (s : Run) (op : Operation) (o : OpId) (x : Operand) (v : Value) :
    (s.absorb op o x v).tally =
      { s.tally with setfieldsAbsorbed := s.tally.setfieldsAbsorbed + 1 } := by
  unfold absorb
  rw [count, tally_bindObject]
  rfl

/-- Forcing an object counts what its allocation counts, and itself. -/
theorem tally_force (s : Run) (ps : List Pass) (x : Operand) (o : OpId) :
    (s.force ps x o).tally =
      let t := (allocate s.allocation ps { s with nextId := s.nextId + 1 }).tally
      { t with virtualsForced := t.virtualsForced + 1 } := by
  unfold force
  rw [count, tally_bindObject, tally_dropWrite]

end Run

namespace Balanced

theorem trans (h : Balanced fed through made s s₁) (h' : Balanced fed' through' made' s₁ s') :
    Balanced (fed + fed') (through + through') (made ++ made') s s' := by
  have hlength : (made ++ made').length = made.length + made'.length := List.length_append
  constructor
  · rw [h'.opsIn, h.opsIn, Nat.add_assoc]
  · rw [h'.accounted, h.accounted, hlength]
    omega
  · rw [h'.virtualsForced, h.virtualsForced, hlength, Nat.add_assoc]

theorem enter (s : Run) (p : Pass) (op : Operation) : Balanced 0 0 [] s (s.enter p op) :=
  ⟨rfl, rfl, rfl⟩

theorem emit (s : Run) (op : Operation) (args : List Operand) :
    Balanced 0 1 [] s (s.emit op args) := by
  refine ⟨rfl, ?_, rfl⟩
  have hsize : (s.emit op args).output.size = s.output.size + 1 := Array.size_push _
  rw [Run.accounted, hsize, Nat.add_right_comm]
  rfl

/-- A stage settles an operation. -/
theorem settle (houtput : s'.output = s.output) (hopsIn : s'.tally.opsIn = s.tally.opsIn)
    (hforced : s'.tally.virtualsForced = s.tally.virtualsForced)
    (hsettled : s'.tally.settled = s.tally.settled + 1) : Balanced 0 1 [] s s' := by
  refine ⟨hopsIn, ?_, hforced⟩
  rw [Run.accounted, houtput, hsettled, ← Nat.add_assoc]
  rfl

variable [Hashable Operand]

theorem postpone (s : Run) (op : Operation) : Balanced 0 1 [] s (s.postpone op) := by
  refine settle rfl rfl rfl ?_
  change s.tally.folded + s.tally.guardsElided + (s.tally.virtualsCreated + 1) +
    s.tally.setfieldsAbsorbed = _
  rw [Tally.settled]
  omega

/-- An allocation is emitted or put off, as other operations are. -/
theorem allocate (op : Operation) (ps : List Pass) (s : Run) :
    Balanced 0 1 [] s (Run.allocate op ps s) := by
  induction ps generalizing s with
  | nil => exact emit s op []
  | cons p ps ih =>
    cases p with
    | constantFolding | guardPropagation => exact (enter s _ op).trans (ih _)
    | allocationSinking => exact (enter s _ op).trans (postpone _ op)

theorem force (s : Run) (ps : List Pass) (x : Operand) (o : OpId) :
    Balanced 0 0 [(s.nextId, o)] s (s.force ps x o) := by
  have h := allocate s.allocation ps { s with nextId := s.nextId + 1 }
  have houtput : (s.force ps x o).output =
      (Run.allocate s.allocation ps { s with nextId := s.nextId + 1 }).output := by
    refine (Run.output_bindObject ..).trans ?_
    rw [Run.output_dropWrite]
  constructor
  · rw [Run.tally_force]
    exact h.opsIn
  · rw [Run.accounted, houtput, Run.tally_force]
    exact h.accounted
  · rw [Run.tally_force]
    exact congrArg (· + 1) h.virtualsForced

end Balanced

/-! ### All along an optimization -/

variable [Hashable Operand]

theorem Forces.balanced (h : Forces ps xs s s' made) : Balanced 0 0 made s s' := by
  induction h with
  | nil => exact ⟨rfl, rfl, rfl⟩
  | skip _ _ ih => exact ih
  | force _ _ _ ih => exact (Balanced.force _ _ _ _).trans ih

/-- **One operation is accounted for**, and so are the allocations made on its way. -/
theorem Passage.balanced (h : Passage op ps s s' made) : Balanced 0 1 made s s' := by
  induction h with
  | emit => exact .emit _ op _
  | @fold ps n s =>
    refine .settle rfl rfl rfl ?_
    change s.tally.folded + 1 + s.tally.guardsElided + s.tally.virtualsCreated +
      s.tally.setfieldsAbsorbed = _
    rw [Tally.settled]
    omega
  | @elide ps x n s =>
    refine .settle rfl rfl rfl ?_
    change s.tally.folded + (s.tally.guardsElided + 1) + s.tally.virtualsCreated +
      s.tally.setfieldsAbsorbed = _
    rw [Tally.settled]
    omega
  | unfolded _ _ ih | unguarded _ _ ih => exact (Balanced.enter _ _ op).trans ih
  | learn _ _ _ _ ih =>
    have h := (Balanced.enter _ _ op).trans ih
    exact ⟨h.opsIn, h.accounted, h.virtualsForced⟩
  | postpone => exact (Balanced.enter _ _ op).trans (.postpone _ op)
  | absorb => refine .settle (Run.output_bindObject ..) ?_ ?_ ?_ <;> rw [Run.tally_absorb] <;> rfl
  | force _ _ hargs _ ih => exact ((Balanced.enter _ _ op).trans hargs.balanced).trans ih

/-- **All operations are accounted for**, and so are the allocations made. -/
theorem Feeds.balanced (h : Feeds ps ops s s' made) :
    Balanced ops.length ops.length made s s' := by
  induction h with
  | nil => exact ⟨rfl, rfl, rfl⟩
  | @cons op ops s s₁ s' made₁ made₂ hop _ ih =>
    have hfed : Balanced 1 0 [] s (s.count fun t => { t with opsIn := t.opsIn + 1 }) :=
      ⟨rfl, rfl, rfl⟩
    rw [List.length_cons, Nat.add_comm]
    exact (hfed.trans hop.balanced).trans ih

/-! ### Allocations that are put off -/

theorem Run.virtualsCreated_allocate (hp : .allocationSinking ∉ ps) (op : Operation) (s : Run) :
    (allocate op ps s).tally.virtualsCreated = s.tally.virtualsCreated := by
  induction ps generalizing s with
  | nil => rfl
  | cons p ps ih =>
    have hrest := fun h => hp (List.mem_cons_of_mem p h)
    cases p with
    | constantFolding | guardPropagation => exact ih hrest (s.enter _ op)
    | allocationSinking => exact absurd List.mem_cons_self hp

theorem Forces.virtualsCreated (h : Forces ps xs s s' made) (hp : .allocationSinking ∉ ps) :
    s'.tally.virtualsCreated = s.tally.virtualsCreated := by
  induction h with
  | nil => rfl
  | skip _ _ ih => exact ih
  | force _ _ _ ih =>
    rw [ih, Run.tally_force]
    exact Run.virtualsCreated_allocate hp _ _

/-- A stage that puts off allocations puts off no other operation, and after it there is none for
the allocations that it makes. -/
theorem Passage.virtualsCreated (h : Passage op ps s s' made)
    (hp : ps.count .allocationSinking ≤ 1) :
    s'.tally.virtualsCreated =
      s.tally.virtualsCreated + if op.kind = .new then ps.count .allocationSinking else 0 := by
  induction h with
  | emit =>
    rw [List.count_nil, ite_self]
    rfl
  | fold hk =>
    rw [if_neg (Kind.ne_new_of_mem_arithmetic hk)]
    rfl
  | elide hk =>
    rw [if_neg (Kind.ne_new_of_mem_guards hk)]
    rfl
  | unfolded _ _ ih | unguarded _ _ ih | learn _ _ _ _ ih => exact ih hp
  | postpone hk =>
    rw [List.count_cons_self] at hp ⊢
    rw [if_pos hk, Nat.le_zero.1 (Nat.le_of_succ_le_succ hp)]
    rfl
  | absorb hk =>
    rw [if_neg (by rw [hk]; decide), Run.tally_absorb]
    rfl
  | force hk _ hargs _ ih =>
    obtain ⟨hlast, hp⟩ := notMem_of_count_cons_le hp
    rw [ih hp, hargs.virtualsCreated hlast, if_neg hk, if_neg hk]
    rfl

theorem Feeds.virtualsCreated (h : Feeds ps ops s s' made)
    (hp : ps.count .allocationSinking = 1) :
    s'.tally.virtualsCreated = s.tally.virtualsCreated + ops.countP (·.kind == .new) := by
  induction h with
  | nil => rfl
  | @cons op ops s s₁ s' made₁ made₂ hop _ ih =>
    rw [ih, hop.virtualsCreated (Nat.le_of_eq hp), hp, List.countP_cons, Nat.add_assoc,
      Nat.add_comm (List.countP _ _)]
    simp only [beq_iff_eq]
    rfl

end

end TraceOpt
