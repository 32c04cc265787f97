import TraceOpt.Proofs.Optimization.Conservation
import TraceOpt.Proofs.Optimization.Faults
import TraceOpt.Trace.Hash

/-!
# What the counters of an optimization say

Counters balance for all traces, malformed ones too, and for all lists of built-in stages.  With at
most one stage that puts off allocations, no more of them are made than were put off: an object is
bound under its own id only, and forcing it takes that binding away.  With one stage that looks into
guards, those that it keeps are those in the output.

* `Run.Backed`, `Passage.backed`: every object is an allocation put off and not yet made.
* `Passage.guardsKept`: a guard that gets through is counted by the stages that look into guards.
* `stageEntries`, `Run.Staged`, `Passage.staged`: what each stage of a release has seen.
* `optimizeWith_conserves`: the counters of an optimization.
-/

namespace TraceOpt

/-- Objects are bound under their own ids, and there are no more of them than allocations that were
put off and not made. -/
def Run.Backed [Hashable Operand] (s : Run) : Prop :=
  ∃ live : List OpId, (∀ x o, (s.resolve x).origin? = some o → x = .op o ∧ o ∈ live) ∧
    live.length + s.tally.virtualsForced ≤ s.tally.virtualsCreated

/-- The number of guards among operations. -/
def guardCount (ops : List Operation) : Nat := ops.countP (·.kind ∈ Kind.guards)

theorem guardCount_append (a b : List Operation) :
    guardCount (a ++ b) = guardCount a + guardCount b := List.countP_append

theorem guardCount_allocated (made : Allocations) : guardCount (made.map allocated) = 0 := by
  refine List.countP_eq_zero.2 fun d hd => ?_
  obtain ⟨p, -, rfl⟩ := List.mem_map.1 hd
  change ¬ decide (Kind.new ∈ Kind.guards) = true
  decide

/-- How many operations each built-in stage has seen, by name; a stage that has seen none is not
listed. -/
def stageEntries (seen : Pass → Nat) : List (String × Nat) :=
  (Pass.all.map fun p => (p.name, seen p)).filter (·.2 ≠ 0)

/-- One operation more is seen by a stage. -/
def sawOne (p : Pass) (seen : Pass → Nat) : Pass → Nat :=
  fun q => if q = p then seen q + 1 else seen q

theorem bump_stageEntries (seen : Pass → Nat) (p : Pass) :
    Tally.bump p.name (stageEntries seen) = stageEntries (sawOne p seen) := by
  cases p <;> cases hf : seen .constantFolding <;> cases hg : seen .guardPropagation <;>
    cases hs : seen .allocationSinking <;>
    simp [stageEntries, Pass.all, sawOne, hf, hg, hs] <;> rfl

/-- How many operations each stage of a release has seen when some were fed: those that no stage
before it has settled. -/
structure Run.Staged (s : Run) (fed : Nat) (seen : Pass → Nat) : Prop where
  /-- What was seen is counted. -/
  counts : s.tally.stageCounts = stageEntries seen
  /-- The first stage sees everything. -/
  folding : seen .constantFolding = fed
  /-- The second stage sees what is not folded. -/
  guards : seen .guardPropagation + s.tally.folded = fed
  /-- The third stage sees what is neither folded nor elided. -/
  sinking : seen .allocationSinking + s.tally.guardsElided + s.tally.folded = fed

/-- States in which the same is counted of stages, and of what is folded and elided. -/
structure Run.SameStages (s s' : Run) : Prop where
  counts : s'.tally.stageCounts = s.tally.stageCounts
  folded : s'.tally.folded = s.tally.folded
  elided : s'.tally.guardsElided = s.tally.guardsElided

section

variable {ps : List Pass} {op : Operation} {ops : List Operation} {xs : List Operand}
  {made : Allocations} {s s' : Run} {x : Operand} {v : Value} {o : OpId} {fed : Nat}
  {seen : Pass → Nat}

/-! ### Entering a stage -/

@[simp] theorem Run.output_enter (s : Run) (p : Pass) (op : Operation) :
    (s.enter p op).output = s.output := rfl

@[simp] theorem Run.guardsKept_enter (s : Run) (p : Pass) (op : Operation) :
    (s.enter p op).tally.guardsKept = s.tally.guardsKept := rfl

theorem Run.counts_enter (h : s.tally.stageCounts = stageEntries seen) (p : Pass)
    (op : Operation) : (s.enter p op).tally.stageCounts = stageEntries (sawOne p seen) := by
  rw [← bump_stageEntries, ← h]
  rfl

/-! ### Allocations made and put off -/

variable [Hashable Operand]

namespace Run.Backed

/-- Nothing becomes an object, and no allocation is made. -/
theorem mono (h : s.Backed)
    (hresolve : ∀ x o, (s'.resolve x).origin? = some o → (s.resolve x).origin? = some o)
    (hforced : s'.tally.virtualsForced = s.tally.virtualsForced)
    (hcreated : s'.tally.virtualsCreated = s.tally.virtualsCreated) : s'.Backed := by
  obtain ⟨live, hlive, hlength⟩ := h
  refine ⟨live, fun x o ho => hlive x o (hresolve x o ho), ?_⟩
  rwa [hforced, hcreated]

theorem congr (h : s.Backed) (hbindings : s'.bindings = s.bindings)
    (hforced : s'.tally.virtualsForced = s.tally.virtualsForced)
    (hcreated : s'.tally.virtualsCreated = s.tally.virtualsCreated) : s'.Backed := by
  refine h.mono (fun x o ho => ?_) hforced hcreated
  rwa [Run.resolve_of_bindings_eq hbindings] at ho

theorem bind_constant (h : s.Backed) (hs : s.bindings.Valid) (x : Operand) (n : Int64) :
    (s.bind x (.constant n)).Backed := by
  refine h.mono (fun y o ho => ?_) rfl rfl
  rcases Run.origin?_resolve_bind hs ho with ⟨-, hv⟩ | ⟨-, hy⟩
  · cases hv
  · exact hy

theorem postpone (h : s.Backed) (hs : s.bindings.Valid) (op : Operation) :
    (s.postpone op).Backed := by
  obtain ⟨live, hlive, hlength⟩ := h
  refine ⟨op.id :: live, fun y i hi => ?_, ?_⟩
  · rcases Run.origin?_resolve_bind (x := op.result) (v := .blank op.id) hs hi with
      ⟨rfl, hv⟩ | ⟨-, hy⟩
    · obtain rfl := Option.some.inj hv
      exact ⟨rfl, List.mem_cons_self⟩
    · obtain ⟨rfl, hmem⟩ := hlive y i hy
      exact ⟨rfl, List.mem_cons_of_mem _ hmem⟩
  · have hcreated : (s.postpone op).tally.virtualsCreated = s.tally.virtualsCreated + 1 := rfl
    have hforced : (s.postpone op).tally.virtualsForced = s.tally.virtualsForced := rfl
    rw [hcreated, hforced, List.length_cons]
    omega

theorem absorb (h : s.Backed) (hs : s.bindings.Valid) (hx : (s.resolve x).origin? = some o)
    (op : Operation) (v : Value) : (s.absorb op o x v).Backed := by
  obtain ⟨live, hlive, hlength⟩ := h
  obtain ⟨rfl, hmem⟩ := hlive x o hx
  refine ⟨live, fun y i hi => ?_, by rwa [Run.tally_absorb]⟩
  -- the object is found by its own id, so that there is one binding
  have hnoted : (s.note (.absorbed op (.written o v))).bindings.Valid := hs
  rw [Run.absorb, Run.bindObject_self] at hi
  rcases Run.origin?_resolve_bind hnoted hi with ⟨rfl, hv⟩ | ⟨-, hy⟩
  · obtain rfl := Option.some.inj hv
    exact ⟨rfl, hmem⟩
  · exact hlive y i hy

/-- With no stage left that puts off allocations, a forced object is one less. -/
theorem force (h : s.Backed) (hs : s.Tidy) (hp : .allocationSinking ∉ ps)
    (hx : (s.resolve x).origin? = some o) : (s.force ps x o).Backed := by
  obtain ⟨live, hlive, hlength⟩ := h
  obtain ⟨rfl, hmem⟩ := hlive x o hx
  refine ⟨live.erase o, fun y i hi => ?_, ?_⟩
  · obtain ⟨hne, hy⟩ := Run.origin?_force hs hp hi
    obtain ⟨rfl, hmem'⟩ := hlive y i hy
    exact ⟨rfl, (List.mem_erase_of_ne fun hio => hne (congrArg Operand.op hio)).2 hmem'⟩
  · have hcreated : (s.force ps (.op o) o).tally.virtualsCreated = s.tally.virtualsCreated := by
      rw [Run.tally_force]
      exact Run.virtualsCreated_allocate hp _ _
    have hforced := (Balanced.force s ps (.op o) o).virtualsForced
    have hpositive := List.length_pos_of_mem hmem
    rw [List.length_singleton] at hforced
    rw [List.length_erase_of_mem hmem, hcreated, hforced]
    omega

end Run.Backed

theorem Forces.backed (h : Forces ps xs s s' made) (hs : s.Tidy) (hp : .allocationSinking ∉ ps)
    (hbacked : s.Backed) : s'.Backed := by
  induction h with
  | nil => exact hbacked
  | skip _ _ ih => exact ih hs hbacked
  | force hx hid _ ih => exact ih (hs.force hx hid _) (hbacked.force hs hp hx)

/-- **Every object is an allocation put off and not yet made**, also after one operation more. -/
theorem Passage.backed (h : Passage op ps s s' made) (hs : s.Tidy)
    (hop : op.id.toNat < s.nextId.toNat) (hp : ps.count .allocationSinking ≤ 1)
    (hbacked : s.Backed) : s'.Backed := by
  induction h with
  | emit | elide => exact hbacked.congr rfl rfl rfl
  | @fold ps n s =>
    have hnoted : ((s.enter .constantFolding op).note (.folded op n)).Backed :=
      hbacked.congr rfl rfl rfl
    exact (hnoted.bind_constant hs.valid op.result n).congr rfl rfl rfl
  | unfolded _ _ ih | unguarded _ _ ih =>
    exact ih (hs.congr rfl (Nat.le_refl _)) hop hp (hbacked.congr rfl rfl rfl)
  | learn _ _ _ h ih =>
    have hbacked' := ih (hs.congr rfl (Nat.le_refl _)) hop hp (hbacked.congr rfl rfl rfl)
    exact (hbacked'.bind_constant (h.valid hs.valid) _ _).congr rfl rfl rfl
  | @postpone ps s =>
    have hentered : (s.enter .allocationSinking op).Backed := hbacked.congr rfl rfl rfl
    exact hentered.postpone hs.valid op
  | @absorb ps x y origin s _ _ hx =>
    have hentered : (s.enter .allocationSinking op).Backed := hbacked.congr rfl rfl rfl
    exact hentered.absorb hs.valid hx op (s.resolve y)
  | @force ps s s₁ s' made made' _ _ hargs _ ih =>
    have hentered : (s.enter .allocationSinking op).Tidy := hs.congr rfl (Nat.le_refl _)
    obtain ⟨hlast, hp⟩ := notMem_of_count_cons_le hp
    refine ih (hargs.tidy hentered) ?_ hp
      (hargs.backed hentered hlast (hbacked.congr rfl rfl rfl))
    exact Nat.lt_of_lt_of_le hop hargs.numbered.le_next

theorem Feeds.backed (h : Feeds ps ops s s' made) (hs : s.Tidy)
    (hops : ∀ op ∈ ops, op.id.toNat < s.nextId.toNat) (hp : ps.count .allocationSinking ≤ 1)
    (hbacked : s.Backed) : s'.Backed := by
  induction h with
  | nil => exact hbacked
  | @cons op ops s s₁ s' made₁ made₂ hop _ ih =>
    obtain ⟨hlt, hops⟩ := List.forall_mem_cons.1 hops
    have hcounted : (s.count fun t => { t with opsIn := t.opsIn + 1 }).Tidy :=
      hs.congr rfl (Nat.le_refl _)
    refine ih (hop.tidy hcounted hlt) (fun d hd => ?_)
      (hop.backed hcounted hlt hp (hbacked.congr rfl rfl rfl))
    exact Nat.lt_of_lt_of_le (hops d hd) hop.numbered.le_next

theorem Trace.backed_startOf (t : Trace) (ps : List Pass) (first : OpId) :
    (t.startOf ps first).Backed := by
  refine ⟨[], fun x o ho => ?_, Nat.le_refl _⟩
  cases x <;> cases ho

/-! ### Guards kept -/

@[simp] theorem Run.output_absorb (s : Run) (op : Operation) (o : OpId) (x : Operand) (v : Value) :
    (s.absorb op o x v).output = s.output := Run.output_bindObject ..

theorem Run.guardsKept_allocate (op : Operation) (ps : List Pass) (s : Run) :
    (allocate op ps s).tally.guardsKept = s.tally.guardsKept := by
  induction ps generalizing s with
  | nil => rfl
  | cons p ps ih =>
    cases p with
    | constantFolding | guardPropagation => exact ih (s.enter _ op)
    | allocationSinking => rfl

theorem Forces.guardsKept (h : Forces ps xs s s' made) :
    s'.tally.guardsKept = s.tally.guardsKept := by
  induction h with
  | nil => rfl
  | skip _ _ ih => exact ih
  | force _ _ _ ih =>
    rw [ih, Run.tally_force]
    exact Run.guardsKept_allocate _ _ _

theorem Forces.guardCount_output (h : Forces ps xs s s' made) :
    guardCount s'.output.toList = guardCount s.output.toList := by
  obtain ⟨fresh, hout, hfresh⟩ := h.output
  have hzero : guardCount fresh ≤ 0 := by
    rw [← guardCount_allocated made]
    exact hfresh.countP_le
  rw [hout, guardCount_append]
  omega

/-- **Guards kept and guards in the output** grow together, except for a guard that no stage looks
into. -/
theorem Passage.guardsKept (h : Passage op ps s s' made)
    (hp : ps.count .guardPropagation ≤ 1) :
    s'.tally.guardsKept + guardCount s.output.toList +
        (if op.kind ∈ Kind.guards ∧ .guardPropagation ∉ ps then 1 else 0) =
      s.tally.guardsKept + guardCount s'.output.toList := by
  induction h with
  | @emit args s =>
    have hone : guardCount [{ op with args }] = if op.kind ∈ Kind.guards then 1 else 0 := by
      simp [guardCount, List.countP_cons]
    have hout : guardCount (s.emit op args).output.toList =
        guardCount s.output.toList + if op.kind ∈ Kind.guards then 1 else 0 := by
      rw [← hone, ← guardCount_append]
      exact congrArg guardCount Array.toList_push
    rw [hout, Nat.add_assoc]
    simp only [List.not_mem_nil, not_false_eq_true, and_true]
    rfl
  | fold hk =>
    rw [if_neg fun hg => Kind.not_mem_guards_of_mem_arithmetic hk hg.1]
    rfl
  | elide =>
    rw [if_neg fun hg => hg.2 List.mem_cons_self]
    rfl
  | unfolded _ _ ih =>
    rw [List.count_cons_of_ne (by decide)] at hp
    simpa using ih hp
  | @learn ps x s s' made hk _ _ _ ih =>
    obtain ⟨hlast, hp⟩ := notMem_of_count_cons_le hp
    have hinner := ih hp
    rw [if_pos ⟨hk, hlast⟩] at hinner
    rw [if_neg fun hg => hg.2 List.mem_cons_self]
    change s'.tally.guardsKept + 1 + guardCount s.output.toList + 0 = _
    rw [Nat.add_zero, Nat.add_right_comm]
    exact hinner
  | unguarded hk _ ih =>
    have hinner := ih (notMem_of_count_cons_le hp).2
    rw [if_neg fun hg => hk hg.1] at hinner ⊢
    exact hinner
  | postpone hk =>
    rw [if_neg fun hg => Kind.ne_new_of_mem_guards hg.1 hk]
    rfl
  | absorb hk =>
    have hnot : op.kind ∉ Kind.guards := by rw [hk]; decide
    rw [if_neg fun hg => hnot hg.1, Run.tally_absorb, Run.output_absorb]
    rfl
  | force _ _ hargs _ ih =>
    rw [List.count_cons_of_ne (by decide)] at hp
    have hinner := ih hp
    rw [hargs.guardsKept, hargs.guardCount_output] at hinner
    simpa using hinner

theorem Feeds.guardsKept (h : Feeds ps ops s s' made) (hp : ps.count .guardPropagation = 1) :
    s'.tally.guardsKept + guardCount s.output.toList =
      s.tally.guardsKept + guardCount s'.output.toList := by
  induction h with
  | nil => rfl
  | @cons op ops s s₁ s' made₁ made₂ hop _ ih =>
    have hfirst := hop.guardsKept (Nat.le_of_eq hp)
    have hmem : .guardPropagation ∈ ps := List.count_pos_iff.1 (by rw [hp]; decide)
    rw [if_neg fun hg => hg.2 hmem, Nat.add_zero] at hfirst
    have hfirst : s₁.tally.guardsKept + guardCount s.output.toList =
      s.tally.guardsKept + guardCount s₁.output.toList := hfirst
    omega

/-! ### What the stages of a release have seen -/

theorem Forces.sameStages (h : Forces [] xs s s' made) : s.SameStages s' := by
  induction h with
  | nil => exact ⟨rfl, rfl, rfl⟩
  | skip _ _ ih => exact ih
  | force _ _ _ ih =>
    obtain ⟨hcounts, hfolded, helided⟩ := ih
    rw [Run.tally_force] at hcounts hfolded helided
    exact ⟨hcounts, hfolded, helided⟩

/-- The last stage counts that it sees an operation, whatever becomes of it. -/
theorem Passage.sameStages (h : Passage op [.allocationSinking] s s' made) :
    (s.enter .allocationSinking op).SameStages s' := by
  cases h with
  | postpone => exact ⟨rfl, rfl, rfl⟩
  | absorb => constructor <;> rw [Run.tally_absorb]
  | force _ _ hargs h =>
    obtain ⟨hcounts, hfolded, helided⟩ := hargs.sameStages
    cases h with
    | emit => exact ⟨hcounts, hfolded, helided⟩

/-- **Each stage of a release sees what no stage before it settles.** -/
theorem Passage.staged (h : Passage op Level.release.passes s s' made) (hs : s.Staged fed seen) :
    ∃ seen', s'.Staged (fed + 1) seen' := by
  obtain ⟨hcounts, hfolding, hguards, hsinking⟩ := hs
  have hfirst := Run.counts_enter hcounts .constantFolding op
  have hsecond := Run.counts_enter hfirst .guardPropagation op
  have hthird := Run.counts_enter hsecond .allocationSinking op
  have hlast : ∀ {s' : Run}, (((s.enter .constantFolding op).enter .guardPropagation op).enter
      .allocationSinking op).SameStages s' → ∃ seen', s'.Staged (fed + 1) seen' := by
    rintro s' ⟨hcounts', hfolded, helided⟩
    refine ⟨_, hcounts'.trans hthird, congrArg (· + 1) hfolding, ?_, ?_⟩
    · rw [hfolded]
      change seen .guardPropagation + 1 + s.tally.folded = _
      omega
    · rw [hfolded, helided]
      change seen .allocationSinking + 1 + s.tally.guardsElided + s.tally.folded = _
      omega
  cases h with
  | fold =>
    refine ⟨_, hfirst, congrArg (· + 1) hfolding, congrArg (· + 1) hguards, ?_⟩
    exact congrArg (· + 1) hsinking
  | unfolded _ h =>
    cases h with
    | elide =>
      refine ⟨_, hsecond, congrArg (· + 1) hfolding, ?_, ?_⟩
      · change seen .guardPropagation + 1 + s.tally.folded = _
        omega
      · change seen .allocationSinking + (s.tally.guardsElided + 1) + s.tally.folded = _
        omega
    | learn _ _ _ h =>
      obtain ⟨hcounts', hfolded, helided⟩ := h.sameStages
      exact hlast ⟨hcounts', hfolded, helided⟩
    | unguarded _ h => exact hlast h.sameStages

theorem Feeds.staged (h : Feeds Level.release.passes ops s s' made) (hs : s.Staged fed seen) :
    ∃ seen', s'.Staged (fed + ops.length) seen' := by
  induction h generalizing fed seen with
  | nil => exact ⟨seen, hs⟩
  | @cons op ops s s₁ s' made₁ made₂ hop _ ih =>
    obtain ⟨seen₁, hs₁⟩ := hop.staged ⟨hs.counts, hs.folding, hs.guards, hs.sinking⟩
    obtain ⟨seen', hs'⟩ := ih hs₁
    rw [List.length_cons, Nat.add_comm ops.length, ← Nat.add_assoc]
    exact ⟨seen', hs'⟩

end

/-- **The counters of an optimization**, whatever the trace and the stages: operations are
conserved, allocations made do not exceed those put off by a single stage, the guards kept by a
single stage are those of the output, and each stage of a release sees what those before it have not
settled. -/
theorem optimizeWith_conserves [Hashable Operand] (passes : List Pass) (t out : Trace)
    (tally : Tally) (h : (optimizeWith passes t).result = .ok (out, tally)) :
    tally.opsIn = t.ops.length ∧ tally.opsOut = out.ops.length ∧
      (tally.opsOut : ℤ) = tally.opsIn + tally.virtualsForced - tally.folded - tally.guardsElided -
        tally.virtualsCreated - tally.setfieldsAbsorbed ∧
      (passes.count .allocationSinking ≤ 1 →
        tally.virtualsForced ≤ tally.virtualsCreated ∧ tally.opsOut ≤ tally.opsIn) ∧
      (passes.count .guardPropagation = 1 → tally.guardsKept = guardCount out.ops) ∧
      (passes = Level.release.passes → tally.stageCounts = stageEntries fun
        | .constantFolding => tally.opsIn
        | .guardPropagation => tally.opsIn - tally.folded
        | .allocationSinking => tally.opsIn - tally.folded - tally.guardsElided) := by
  obtain ⟨first, s, made, hfirst, hfeeds, rfl, rfl⟩ := optimizeWith_eq_ok h
  have hbalanced := hfeeds.balanced
  have hopsIn : s.tally.opsIn = 0 + t.ops.length := hbalanced.opsIn
  have hforced : s.tally.virtualsForced = 0 + made.length := hbalanced.virtualsForced
  have haccounted : s.accounted = 0 + t.ops.length + made.length := hbalanced.accounted
  rw [Run.accounted, Tally.settled] at haccounted
  refine ⟨by dsimp only; omega, Array.length_toList.symm, by dsimp only; omega, fun hp => ?_,
    fun hp => ?_, ?_⟩
  · have hids : ∀ d ∈ t.ops, d.id.toNat < (t.startOf passes first).nextId.toNat := fun d hd =>
      UInt32.lt_iff_toNat_lt.1 (Trace.lt_of_nextFreeId? hd hfirst)
    obtain ⟨live, -, hlive⟩ := hfeeds.backed (t.tidy_startOf passes first) hids hp
      (t.backed_startOf passes first)
    dsimp only
    omega
  · have hkept : s.tally.guardsKept + 0 = 0 + guardCount s.output.toList := hfeeds.guardsKept hp
    dsimp only
    omega
  · rintro rfl
    have hstart : (t.startOf Level.release.passes first).Staged 0 fun _ => 0 :=
      ⟨rfl, rfl, rfl, rfl⟩
    obtain ⟨seen, hcounts, hfolding, hguards, hsinking⟩ := hfeeds.staged hstart
    refine hcounts.trans (congrArg stageEntries (funext fun p => ?_))
    cases p <;> dsimp only <;> omega

/-! ### Three objects under one id -/

/-- A malformed trace: the second of three objects under one id replaces the first, which is then
never made, and two arguments name no earlier operation. -/
def replaced : Trace :=
  ⟨0, [⟨0, .new, [], some .ref⟩,
    ⟨0, .new, [], some .ref⟩,
    ⟨1, .setField, [.op 0, .op 9], none⟩,
    ⟨2, .call, [.op 0, .op 0, .op 6], some .ref⟩,
    ⟨0, .new, [], some .ref⟩,
    ⟨3, .intAdd, [.const 2, .const 3], some .int⟩,
    ⟨4, .guardTrue, [.op 3], none⟩,
    ⟨5, .guardFalse, [.op 0], none⟩,
    ⟨6, .guardFalse, [.op 0], none⟩]⟩

/-- What is left of it. -/
def replacedOutput : Trace :=
  ⟨0, [⟨7, .new, [], some .ref⟩,
    ⟨2, .call, [.op 7, .op 7, .op 6], some .ref⟩,
    ⟨8, .new, [], some .ref⟩,
    ⟨5, .guardFalse, [.op 8], none⟩]⟩

/-- The counters of that optimization. -/
def replacedTally : Tally where
  opsIn := 9
  opsOut := 4
  folded := 1
  guardsElided := 2
  guardsKept := 1
  virtualsCreated := 3
  virtualsForced := 2
  setfieldsAbsorbed := 1
  stageCounts := [("constant_fold", 9), ("guard_propagation", 8), ("virtualize", 6)]

theorem replaced_conserved :
    (optimizeWith Level.release.passes replaced).result = .ok (replacedOutput, replacedTally) ∧
      replacedTally.opsIn = replaced.ops.length ∧
      replacedTally.opsOut = replacedOutput.ops.length ∧
      (replacedTally.opsOut : ℤ) = 9 + 2 - 1 - 2 - 3 - 1 ∧
      replacedTally.virtualsForced ≤ replacedTally.virtualsCreated ∧
      replacedTally.guardsKept = guardCount replacedOutput.ops ∧
      replacedTally.stageCounts = stageEntries fun
        | .constantFolding => 9
        | .guardPropagation => 9 - 1
        | .allocationSinking => 9 - 1 - 2 := by
  have hresult : (optimizeWith Level.release.passes replaced).result =
      .ok (replacedOutput, replacedTally) := by
    decide +kernel
  obtain ⟨hin, hout, hsum, hforced, hkept, hstages⟩ :=
    optimizeWith_conserves Level.release.passes replaced replacedOutput replacedTally hresult
  exact ⟨hresult, hin, hout, hsum, (hforced (by decide)).1, hkept (by decide), hstages rfl⟩

end TraceOpt
