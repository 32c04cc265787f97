import TraceOpt.Proofs.Optimization.State
import TraceOpt.Proofs.Trace.Execution

/-!
# What is known is true

A state is sound under a valuation when every bound operand holds what its value stands for.  A
passage keeps a state sound as long as the operation is no guard that fails, fresh allocations hold
what the objects they allocate hold, and an operand that a guard for truth is taken to have shown
to be 1 is 1.

* `Passage.sound`: passages keep states sound.
* `Passage.output`: what a passage adds to the output are some of its allocations, and then the
  operation with arguments that hold the same, or nothing.
-/

namespace TraceOpt

/-! ### Sound states -/

/-- The operand that a value stands for; an object stands for the result of its `new`
operation. -/
def Value.target : Value → Operand
  | constant n => .const n
  | operand x => x
  | blank origin | written origin _ => .op origin

theorem Value.target_of_origin? {v : Value} {origin : OpId} (h : v.origin? = some origin) :
    v.target = .op origin := by
  cases v with
  | constant | operand => cases h
  | blank | written => rw [← Option.some.inj h]; rfl

/-- Every bound operand holds what its value stands for. -/
def Run.Sound [Hashable Operand] (w : Valuation) (s : Run) : Prop :=
  ∀ x v, s.bindings.find? x = some v → w.value v.target = w.value x

/-- Fresh allocations hold what the objects that they allocate hold. -/
def Valuation.Respects (w : Valuation) (made : Allocations) : Prop :=
  ∀ p ∈ made, w.result p.1 = w.result p.2

variable [Hashable Operand]

namespace Run.Sound

variable {w : Valuation} {s : Run} {x y : Operand} {v : Value} {op : Operation}

theorem resolve (h : s.Sound w) (x : Operand) : w.value (s.resolve x).target = w.value x := by
  rcases s.resolve_cases x with ⟨n, rfl, hx⟩ | hx | ⟨-, hx⟩
  · rw [hx]
    rfl
  · exact h x _ hx
  · rw [hx]
    rfl

theorem value_of_constant (h : s.Sound w) {n : Int64} (hx : s.resolve x = .constant n) :
    w.value x = n := by
  rw [← h.resolve x, hx]
  rfl

theorem value_of_origin? (h : s.Sound w) {origin : OpId}
    (hx : (s.resolve x).origin? = some origin) : w.value x = w.result origin := by
  rw [← h.resolve x, Value.target_of_origin? hx]
  rfl

theorem value_place (h : s.Sound w) (hx : s.place x = .ok y) : w.value y = w.value x := by
  rw [← h.resolve x]
  unfold place at hx
  cases hv : s.resolve x with
  | constant | operand =>
    rw [hv] at hx
    cases hx
    rfl
  | blank | written =>
    rw [hv] at hx
    cases hx

theorem bind (h : s.Sound w) (hs : s.bindings.Valid) (hv : w.value v.target = w.value x) :
    (s.bind x v).Sound w := by
  intro y v' hy
  rw [find?_bind hs] at hy
  split_ifs at hy with hxy
  · subst hxy
    obtain rfl := Option.some.inj hy
    -- instead of an operand, what that operand resolves to is bound
    unfold settle
    split
    · split_ifs
      · exact hv
      · exact (h.resolve _).trans hv
    · exact hv
  · exact h y v' hy

theorem bindObject (h : s.Sound w) (hs : s.bindings.Valid) {origin : OpId}
    (hx : w.value x = w.result origin) (hv : w.value v.target = w.result origin) :
    (s.bindObject origin x v).Sound w := by
  unfold Run.bindObject
  split_ifs
  · exact h.bind hs hv
  · exact (h.bind hs hv).bind (valid_bind hs _ _) (hv.trans hx.symm)

theorem allocate (h : s.Sound w) (hs : s.bindings.Valid) (op : Operation) (ps : List Pass) :
    (Run.allocate op ps s).Sound w := by
  rcases allocate_cases op ps s with ⟨hb, -⟩ | ⟨hb, -⟩
  · rw [Run.Sound, hb]
    exact h.bind hs rfl
  · rwa [Run.Sound, hb]

theorem force (h : s.Sound w) (hs : s.bindings.Valid) {ps : List Pass} {origin : OpId}
    (hx : (s.resolve x).origin? = some origin) (hmade : w.result s.nextId = w.result origin) :
    (s.force ps x origin).Sound w := by
  refine bindObject ?_ ?_ (h.value_of_origin? hx) hmade
  · rw [Run.Sound, bindings_dropWrite]
    refine allocate ?_ ?_ _ _
    · exact h
    · exact hs
  · rw [bindings_dropWrite]
    refine valid_allocate ?_ _ _
    exact hs

end Run.Sound

/-- When nothing is known, everything that is known is true. -/
theorem Run.sound_start (w : Valuation) (first : OpId) (log : Array Event) :
    Run.Sound w { Run.start first with log } := by
  intro x v hx
  cases hx

/-! ### Passages -/

/-- An operand that a guard for truth is taken to have shown to be 1 is 1. -/
def Run.Heeds (w : Valuation) (s : Run) (op : Operation) : Prop :=
  op.kind = .guardTrue → ∀ x ∈ op.args, s.bindings.find? x = some (.constant 1) → w.value x = 1

omit [Hashable Operand] in
/-- A guard has no argument but the one that it checks. -/
theorem Operation.HasArity.args_eq {op : Operation} (h : op.HasArity) (hk : op.kind ∈ Kind.guards)
    {x : Operand} (hx : op.arg 0 = .ok x) : op.args = [x] := by
  obtain ⟨y, hy⟩ := List.length_eq_one_iff.1 (h 1 (Kind.arity?_of_mem_guards hk))
  rw [arg, hy] at hx
  cases hx
  exact hy

/-- What an operation computes from known integers is what it computes. -/
theorem Run.Sound.computed?_eq {w : Valuation} {s : Run} {op : Operation} {n : Int64}
    (h : s.Sound w) (hn : ConstantFolding.result? op.kind (op.args.map s.resolve) = some n) :
    (op.step w).computed? = some n := by
  unfold ConstantFolding.result? at hn
  split at hn
  · next a b hargs =>
    obtain ⟨x, xs, hop, ha, hrest⟩ := List.map_eq_cons_iff.1 hargs
    obtain ⟨y, hxs, hb⟩ := List.map_eq_singleton_iff.1 hrest
    subst hxs
    rw [Step.computed?, Operation.step, hop]
    simp only [List.map_cons, List.map_nil, h.value_of_constant ha, h.value_of_constant hb]
    exact hn
  · cases hn

section

variable {w : Valuation} {op : Operation} {ps : List Pass} {s s' : Run} {made : Allocations}

theorem Forces.sound {xs : List Operand} (h : Forces ps xs s s' made) (hs : s.bindings.Valid)
    (hsound : s.Sound w) (hmade : w.Respects made) : s'.Sound w := by
  induction h with
  | nil => exact hsound
  | skip _ _ ih => exact ih hs hsound hmade
  | force hx _ _ ih =>
    obtain ⟨hfirst, hrest⟩ := List.forall_mem_cons.1 hmade
    exact ih (Run.valid_force hs _ _ _) (hsound.force hs hx hfirst) hrest

/-- **Passages keep states sound.** -/
theorem Passage.sound (h : Passage op ps s s' made) (hs : s.bindings.Valid) (hsound : s.Sound w)
    (hmade : w.Respects made) (harity : op.HasArity) (hop : w.Consistent op)
    (hpass : (op.step w).fails = false) (hheeds : s'.Heeds w op) : s'.Sound w := by
  induction h with
  | emit | elide => exact hsound
  | @fold ps n s hk hn =>
    refine Run.Sound.bind ?_ ?_ ?_
    · exact hsound
    · exact hs
    · exact Option.some.inj ((hsound.computed?_eq hn).symm.trans (hop hk))
  | unfolded _ _ ih | unguarded _ _ ih => exact ih hs hsound hmade hheeds
  | @learn ps x s s' made hk harg hx h ih =>
    have hargs := harity.args_eq hk harg
    have hs' := h.valid hs
    -- the operand that the guard checks holds what is learnt about it
    have htruth : w.value x = Kind.ofTruth op.kind.passes := by
      rcases Kind.mem_guards_iff.1 hk with htrue | hfalse
      · rw [htrue]
        refine hheeds htrue x (hargs ▸ List.mem_singleton_self x) ?_
        change (s'.bind x _).bindings.find? x = _
        rw [Run.find?_bind hs', if_pos rfl, htrue]
        rfl
      · rw [Operation.step, hargs, List.map_singleton, Step.fails_guard hk, hfalse] at hpass
        have hzero : ¬ (w.value x ≠ 0) := of_decide_eq_false (bne_eq_false_iff_eq.1 hpass)
        rw [hfalse, not_not.1 hzero]
        rfl
    -- a guard may be learnt from by several stages, and the inner ones need the same fact
    refine (ih hs hsound hmade fun htrue y hy _ => ?_).bind hs' htruth.symm
    rw [hargs, List.mem_singleton] at hy
    rw [hy, htruth, htrue]
    rfl
  | postpone hk =>
    refine Run.Sound.bind ?_ ?_ rfl
    · exact hsound
    · exact hs
  | absorb hk harg hx harg' =>
    refine Run.Sound.bindObject ?_ ?_ (hsound.value_of_origin? hx) rfl
    · exact hsound
    · exact hs
  | force hk hset hargs h ih =>
    obtain ⟨hmade, hmade'⟩ := List.forall_mem_append.1 hmade
    exact ih (hargs.valid hs) (hargs.sound hs hsound hmade) hmade' hheeds

/-! ### The output -/

theorem Run.Sound.map_value {xs ys : List Operand} (h : s.Sound w)
    (hargs : List.Forall₂ (fun x y => s.place x = .ok y) xs ys) :
    ys.map w.value = xs.map w.value := by
  induction hargs with
  | nil => rfl
  | cons hx _ ih => rw [List.map_cons, List.map_cons, h.value_place hx, ih]

/-- The operation of a fresh allocation. -/
def allocated (p : OpId × OpId) : Operation := ⟨p.1, .new, [], some .ref⟩

omit [Hashable Operand] in
theorem filter_new_append {made : Allocations} {d : Operation} (hd : d.kind ≠ .new) :
    (made.map allocated ++ [d]).filter (·.kind = .new) = made.map allocated := by
  rw [List.filter_append, List.filter_singleton, decide_eq_false hd]
  refine (List.append_nil _).trans (List.filter_eq_self.2 fun a ha => ?_)
  obtain ⟨p, -, rfl⟩ := List.mem_map.1 ha
  rfl

/-- What remains of an operation in the output, under the valuations of a set: nothing, if it is
one that nobody sees and no guard that fails, or the operation with arguments that hold the
same. -/
inductive Remains (op : Operation) (W : Valuation → Prop) : List Operation → Prop
  | dropped (hk : op.kind ∉ Kind.observed) (hpass : ∀ w, W w → (op.step w).fails = false) :
      Remains op W []
  | kept {args : List Operand} (hlength : args.length = op.args.length)
      (hvalues : ∀ w, W w → args.map w.value = op.args.map w.value) :
      Remains op W [{ op with args }]

omit [Hashable Operand] in
theorem Remains.mono {W W' : Valuation → Prop} {tail : List Operation} (h : Remains op W tail)
    (hW : ∀ w, W' w → W w) : Remains op W' tail := by
  cases h with
  | dropped hk hpass => exact .dropped hk fun w hw => hpass w (hW w hw)
  | kept hlength hvalues => exact .kept hlength fun w hw => hvalues w (hW w hw)

theorem Forces.output {xs : List Operand} (h : Forces ps xs s s' made) :
    ∃ fresh, s'.output.toList = s.output.toList ++ fresh ∧
      fresh.Sublist (made.map allocated) := by
  induction h with
  | nil => exact ⟨[], by simp, .slnil⟩
  | skip _ _ ih => exact ih
  | @force x xs origin s s' made hx hid h ih =>
    obtain ⟨fresh, hout, hsub⟩ := ih
    rcases s.output_force ps x origin with ho | ho
    · exact ⟨fresh, by rw [hout, ho], hsub.cons _⟩
    · refine ⟨s.allocation :: fresh, ?_, hsub.cons_cons _⟩
      rw [hout, ho, Array.toList_push, List.append_assoc, List.singleton_append]

/-- With no stage left, all allocations go to the output. -/
theorem Forces.output_nil {xs : List Operand} (h : Forces [] xs s s' made) :
    s'.output.toList = s.output.toList ++ made.map allocated := by
  induction h with
  | nil => exact (List.append_nil _).symm
  | skip _ _ ih => exact ih
  | force _ _ _ ih =>
    rw [ih, Run.output_force_of_notMem List.not_mem_nil, Array.toList_push, List.append_assoc,
      List.singleton_append]
    rfl

/-- **What a passage adds to the output** are some of its allocations, and then what remains of the
operation. -/
theorem Passage.output (h : Passage op ps s s' made) (hs : s.bindings.Valid)
    (harity : op.HasArity) :
    ∃ fresh tail, s'.output.toList = s.output.toList ++ (fresh ++ tail) ∧
      fresh.Sublist (made.map allocated) ∧
      Remains op (fun w => s.Sound w ∧ w.Respects made) tail := by
  induction h with
  | @emit args s hargs =>
    have hplaced := Run.placed_of_mapM hargs
    refine ⟨[], [{ op with args }], Array.toList_push, .slnil, ?_⟩
    exact .kept hplaced.length_eq.symm fun w hw => hw.1.map_value hplaced
  | fold hk hn =>
    refine ⟨[], [], (List.append_nil _).symm, .slnil, ?_⟩
    refine .dropped (Kind.not_mem_observed_of_mem_arithmetic hk) fun w _ => ?_
    exact Step.fails_eq_false (Kind.not_mem_guards_of_mem_arithmetic hk)
  | unfolded _ _ ih | unguarded _ _ ih | learn _ _ _ _ ih => exact ih hs
  | elide hk harg hx hn =>
    refine ⟨[], [], (List.append_nil _).symm, .slnil, ?_⟩
    refine .dropped (Kind.not_mem_observed_of_mem_guards hk) fun w hw => ?_
    rw [Operation.step, harity.args_eq hk harg, List.map_singleton, Step.fails_guard hk,
      hw.1.value_of_constant hx, hn, bne_self_eq_false]
  | postpone hk =>
    refine ⟨[], [], (List.append_nil _).symm, .slnil, .dropped (by rw [hk]; decide) fun w _ => ?_⟩
    have hguard : op.kind ∉ Kind.guards := by rw [hk]; decide
    exact Step.fails_eq_false hguard
  | absorb hk =>
    refine ⟨[], [], ?_, .slnil, .dropped (by rw [hk]; decide) fun w _ => ?_⟩
    · refine (congrArg Array.toList (Run.output_bindObject ..)).trans ?_
      exact (List.append_nil _).symm
    · have hguard : op.kind ∉ Kind.guards := by rw [hk]; decide
      exact Step.fails_eq_false hguard
  | force hk hset hargs h ih =>
    obtain ⟨fresh, hout, hsub⟩ := hargs.output
    obtain ⟨fresh', tail, hout', hsub', htail⟩ := ih (hargs.valid hs)
    refine ⟨fresh ++ fresh', tail, ?_, ?_, htail.mono fun w hw => ?_⟩
    · rw [hout', hout]
      simp only [List.append_assoc]
      rfl
    · rw [List.map_append]
      exact hsub.append hsub'
    · obtain ⟨hmade, hmade'⟩ := List.forall_mem_append.1 hw.2
      exact ⟨hargs.sound hs hw.1 hmade, hmade'⟩

end

end TraceOpt
