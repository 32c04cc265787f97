import TraceOpt.Proofs.Optimization.Placement

/-!
# What all built-in stages do with an operation

With all built-in stages an operation is folded, elided, postponed or absorbed, or its arguments are
forced and it is emitted; if it is a guard, its argument is known from then on.

* `Emission`: an operation whose arguments are forced and replaced by what holds their values.
* `Released`, `Passage.released`: the cases, each with its conditions and the state it leads to.
* `Forces.resolve_cases`: forcing changes objects only, and makes allocations of them.
-/

namespace TraceOpt

/-- States that differ in their log and counters only. -/
structure Run.Alike (s s' : Run) : Prop where
  /-- The same is known. -/
  bindings : s'.bindings = s.bindings
  /-- The same is in the output. -/
  output : s'.output = s.output
  /-- The same ids are unused. -/
  nextId : s'.nextId = s.nextId

/-- The arguments of an operation are forced, with these allocations, and it is ready to be emitted
with other arguments. -/
structure Emission [Hashable Operand] (op : Operation) (s s₁ : Run) (args : List Operand)
    (made : Allocations) : Prop where
  /-- It is no allocation. -/
  kind : op.kind ≠ .new
  /-- It does not write to an object that has not been allocated. -/
  receiver : op.kind = .setField → ∃ x, op.arg 0 = .ok x ∧ (s.resolve x).origin? = none
  /-- If it is an integer operation, not all its arguments are known. -/
  unknown : op.kind ∈ Kind.arithmetic → ∃ x ∈ op.args, (s.resolve x).isConstant = false
  /-- The objects among its arguments are allocated. -/
  forces : Forces [] op.args s s₁ made
  /-- Arguments are replaced by the operands that hold their values. -/
  placed : List.Forall₂ (fun x y => s₁.place x = .ok y) op.args args

/-- With all stages, an operation leads from one state to another, with these allocations. -/
inductive Released [Hashable Operand] (op : Operation) (s : Run) : Run → Allocations → Prop
  | folded {n : Int64} (hk : op.kind ∈ Kind.arithmetic)
      (hargs : ∀ x ∈ op.args, (s.resolve x).isConstant = true) : Released op s (s.fold op n) []
  | elided {x : Operand} {n : Int64} (hk : op.kind ∈ Kind.guards) (harg : x ∈ op.args)
      (hx : (s.resolve x).isConstant = true) : Released op s (s.elide op x n) []
  | postponed (hk : op.kind = .new) : Released op s (s.postpone op) []
  | absorbed {x : Operand} {o : OpId} {stored : Value} (hk : op.kind = .setField)
      (harg : op.arg 0 = .ok x) (hx : (s.resolve x).origin? = some o) :
      Released op s (s.absorb op o x stored) []
  | emitted {s₁ : Run} {args : List Operand} {made : Allocations}
      (h : Emission op s s₁ args made) (hk : op.kind ∉ Kind.guards) :
      Released op s (s₁.emit op args) made
  /-- The guard stays, and tells what its argument is. -/
  | checked {x : Operand} {s₁ : Run} {args : List Operand} {made : Allocations}
      (h : Emission op s s₁ args made) (hk : op.kind ∈ Kind.guards) (harg : op.arg 0 = .ok x)
      (hx : (s.resolve x).isConstant = false) :
      Released op s ((s₁.emit op args).learn op x) made

section

variable {base : Nat} {seen : List Operation} {live : List OpId} {made made' : Allocations}
  {s s₁ s' : Run} {op : Operation} {args : List Operand} {x y : Operand}

theorem ConstantFolding.exists_not_isConstant {k : Kind} {vs : List Value}
    (hk : k ∈ Kind.arithmetic) (hlength : vs.length = 2) (h : result? k vs = none) :
    ∃ v ∈ vs, v.isConstant = false := by
  obtain ⟨u, v, rfl⟩ := List.length_eq_two.1 hlength
  cases u with
  | constant a =>
    cases v with
    | constant b =>
      have hsome : (k.eval? a b).isSome = true := Kind.eval?_isSome_iff.2 hk
      rw [result?] at h
      rw [h] at hsome
      cases hsome
    | operand | blank | written => exact ⟨_, List.mem_cons_of_mem _ List.mem_cons_self, rfl⟩
  | operand | blank | written => exact ⟨_, List.mem_cons_self, rfl⟩

theorem Run.Alike.enter (h : s.Alike s') (p : Pass) (op : Operation) : s.Alike (s'.enter p op) :=
  ⟨h.bindings, h.output, h.nextId⟩

variable [Hashable Operand]

theorem Run.Alike.resolve (h : s.Alike s') (x : Operand) : s'.resolve x = s.resolve x :=
  Run.resolve_congr (congrArg (HashTrie.find? · x) h.bindings)

/-- The last stage, when it does not put off the operation nor absorbs it. -/
theorem Emission.of_forces (hk : op.kind ≠ .new)
    (hset : op.kind = .setField → ∃ x, op.arg 0 = .ok x ∧ (s.resolve x).origin? = none)
    (hunknown : op.kind ∈ Kind.arithmetic → ∃ x ∈ op.args, (s.resolve x).isConstant = false)
    (hargs : Forces [] op.args (s.enter .allocationSinking op) s₁ made)
    (hplaced : op.args.mapM s₁.place = .ok args) :
    Emission op (s.enter .allocationSinking op) s₁ args made :=
  ⟨hk, hset, hunknown, hargs, Run.placed_of_mapM hplaced⟩

/-- **What becomes of an operation with all stages.** -/
theorem Passage.released (h : Passage op Level.release.passes s s' made) :
    ∃ s₀, s.Alike s₀ ∧ Released op s₀ s' made := by
  have halike : s.Alike (s.enter .constantFolding op) := ⟨rfl, rfl, rfl⟩
  cases h with
  | fold hk hn =>
    refine ⟨_, halike, .folded hk fun x hx => ?_⟩
    exact ConstantFolding.isConstant_of_result? hn _ (List.mem_map_of_mem hx)
  | unfolded hfold h =>
    have hunknown : op.kind ∈ Kind.arithmetic → ∃ x ∈ op.args,
        (((s.enter .constantFolding op).enter .guardPropagation op).resolve x).isConstant =
          false := by
      intro hk
      obtain ⟨hlength, hnone⟩ := hfold hk
      obtain ⟨v, hv, hconstant⟩ := ConstantFolding.exists_not_isConstant hk
        (by rw [List.length_map, hlength]) hnone
      obtain ⟨x, hx, rfl⟩ := List.mem_map.1 hv
      rw [Run.resolve_enter, Run.resolve_enter]
      exact ⟨x, hx, hconstant⟩
    have halike := halike.enter .guardPropagation op
    cases h with
    | elide hk harg hx =>
      refine ⟨_, halike, .elided hk (Operation.mem_args_of_arg harg) ?_⟩
      rw [Run.resolve_enter, hx]
      rfl
    | learn hk harg hx h =>
      cases h with
      | postpone hnew => exact absurd hnew (Kind.ne_new_of_mem_guards hk)
      | absorb hset =>
        rw [hset] at hk
        exact absurd hk (by decide)
      | force hnew hset hargs h =>
        cases h with
        | emit hplaced =>
          rw [List.append_nil]
          refine ⟨_, halike.enter .allocationSinking op,
            .checked (.of_forces hnew hset hunknown hargs hplaced) hk harg ?_⟩
          rw [Run.resolve_enter, Run.resolve_enter]
          exact hx
    | unguarded hk h =>
      cases h with
      | postpone hnew => exact ⟨_, halike.enter .allocationSinking op, .postponed hnew⟩
      | absorb hset harg hx =>
        refine ⟨_, halike.enter .allocationSinking op, .absorbed hset harg ?_⟩
        rw [Run.resolve_enter]
        exact hx
      | force hnew hset hargs h =>
        cases h with
        | emit hplaced =>
          rw [List.append_nil]
          exact ⟨_, halike.enter .allocationSinking op,
            .emitted (.of_forces hnew hset hunknown hargs hplaced) hk⟩

/-! ### What stands in the output -/

omit [Hashable Operand] in
theorem Run.toList_emit (s : Run) (op : Operation) (args : List Operand) :
    (s.emit op args).output.toList = s.output.toList ++ [{ op with args }] := Array.toList_push

theorem Run.toList_learn (s : Run) (op : Operation) (args : List Operand) (x : Operand) :
    ((s.emit op args).learn op x).output.toList = s.output.toList ++ [{ op with args }] :=
  Array.toList_push

/-- What stands in the output for an operand is the integer that it is known to be, or the operand
that it is. -/
theorem Run.resolve_of_place (h : s.place x = .ok y) :
    (∃ n, s.resolve x = .constant n ∧ y = .const n) ∨ s.resolve x = .operand y := by
  unfold place at h
  cases hv : s.resolve x with
  | constant n =>
    rw [hv] at h
    cases h
    exact Or.inl ⟨n, rfl, rfl⟩
  | operand z =>
    rw [hv] at h
    cases h
    exact Or.inr rfl
  | blank | written =>
    rw [hv] at h
    cases h

theorem Run.exists_placed_of_mem {xs ys : List Operand}
    (h : List.Forall₂ (fun x y => s.place x = .ok y) xs ys) (hx : x ∈ xs) :
    ∃ y ∈ ys, s.place x = .ok y := by
  induction h with
  | nil => cases hx
  | cons hplace _ ih =>
    rcases List.mem_cons.1 hx with rfl | hx
    · exact ⟨_, List.mem_cons_self, hplace⟩
    · obtain ⟨y, hy, hplace⟩ := ih hx
      exact ⟨y, List.mem_cons_of_mem _ hy, hplace⟩

/-! ### What forcing changes -/

/-- **Forcing makes allocations of objects**, and leaves everything else as it is. -/
theorem Forces.resolve_cases {xs : List Operand} (h : Forces [] xs s s' made')
    (hinv : Invariant base seen made s) (y : Operand) :
    s'.resolve y = s.resolve y ∨ ∃ p ∈ made', s'.resolve y = .operand (.op p.1) := by
  induction h generalizing made with
  | nil => exact Or.inl rfl
  | skip _ _ ih => exact ih hinv
  | @force x xs o s s' made' hx hid h ih =>
    rcases ih (hinv.force hx hid []) with heq | ⟨p, hp, hy⟩
    · rw [heq]
      have hne : o ≠ s.nextId := fun ho => hinv.ne_nextId_of_known
        (known_of_isObject (hinv.object hx).2.1) (congrArg Operand.op ho)
      have hfind := Run.find?_force (x := x) List.not_mem_nil hinv.valid hinv.find?_nextId hne y
      by_cases hy : y = x ∨ y = .op o
      · rw [if_pos hy] at hfind
        right
        refine ⟨_, List.mem_cons_self, ?_⟩
        rcases (s.force [] x o).resolve_cases y with ⟨n, rfl, -⟩ | hbound | ⟨hnone, -⟩
        · -- a literal is no object
          rcases hy with rfl | hy
          · cases hx
          · cases hy
        · exact Option.some.inj (hbound.symm.trans hfind)
        · rw [hfind] at hnone
          cases hnone
      · rw [if_neg hy] at hfind
        exact Or.inl (Run.resolve_congr hfind)
    · exact Or.inr ⟨p, List.mem_cons_of_mem _ hp, hy⟩

/-- An operand that is another one in the output is that of an allocation, or just itself. -/
theorem Sinking.resolve_operand (h : Sinking seen live made s.bindings)
    (hx : s.resolve x = .operand y) :
    (y = x ∧ s.bindings.find? x = none) ∨ ∃ p ∈ made, x = .op p.2 ∧ y = .op p.1 := by
  rcases s.resolve_cases x with ⟨n, -, hn⟩ | hbound | ⟨hnone, hself⟩
  · rw [hn] at hx
    cases hx
  · rw [hx] at hbound
    exact Or.inr (h.renamed x y hbound)
  · exact Or.inl ⟨Value.operand.inj (hx.symm.trans hself), hnone⟩

namespace Emission

variable (h : Emission op s s₁ args made') (hinv : Invariant base seen made s)
include h

theorem output : s₁.output.toList = s.output.toList ++ made'.map allocated := h.forces.output_nil

include hinv

theorem invariant : Invariant base seen (made ++ made') s₁ := h.forces.invariant hinv

/-- The objects that escape at the operation are allocated. -/
theorem sinks (hs : Sinking seen live made s.bindings) :
    made'.map Prod.snd = leaving live op ∧ ¬ op.WritesTo live ∧
      Sinking seen (live.filter (· ∉ made'.map Prod.snd)) (made ++ made') s₁.bindings := by
  have hwrites : ¬ op.WritesTo live := by
    rintro ⟨hset, o, ho, hhead⟩
    obtain ⟨x, harg, hx⟩ := h.receiver hset
    obtain rfl := Option.some.inj ((Operation.head?_of_arg harg).symm.trans hhead)
    rw [hs.origin?_eq_some_iff.2 ⟨rfl, ho⟩] at hx
    cases hx
  obtain ⟨hmade, hs₁⟩ := h.forces.sinks hinv hs
  refine ⟨?_, hwrites, hs₁⟩
  rw [hmade, leaving, if_neg (not_or.2 ⟨h.kind, hwrites⟩)]

/-- What is known to be an integer was so before. -/
theorem isConstant_of_resolve (hx : (s₁.resolve x).isConstant = true) :
    (s.resolve x).isConstant = true := by
  rcases h.forces.resolve_cases hinv x with heq | ⟨p, -, hp⟩
  · rwa [heq] at hx
  · rw [hp] at hx
    cases hx

end Emission

/-- **Feeding one operation more.**  After the operations before it, the invariant holds and objects
are as the scan says. -/
theorem Feeds.exists_released {ops : List Operation} {s₀ : Run}
    (h : Feeds Level.release.passes (ops ++ [op]) s₀ s' made) (hstart : Invariant base [] [] s₀)
    (hs₀ : Sinking [] [] [] s₀.bindings) (hops : Continues base [] (ops ++ [op]))
    (harity : ∀ d ∈ ops ++ [op], d.HasArity) :
    ∃ s₁ s made₁ made₂, Feeds Level.release.passes ops s₀ s₁ made₁ ∧ s₁.Alike s ∧
      Released op s s' made₂ ∧ made = made₁ ++ made₂ ∧ Invariant base ops made₁ s ∧
      Sinking ops (unescaped ops) made₁ s.bindings ∧ made₁.map Prod.snd = escapees ops := by
  have hops₁ := hops.split.1
  have harity₁ := (List.forall_mem_append.1 harity).1
  obtain ⟨s₁, made₁, made₂, hbefore, hlast, rfl⟩ := h.split
  have hinv := hbefore.invariant hstart hops₁
  obtain ⟨hmade, -, hs₁⟩ := hbefore.sinks hstart hops₁ harity₁ hs₀
  cases hlast with
  | cons hop hnil =>
    cases hnil
    obtain ⟨s, halike, hreleased⟩ := hop.released
    have halike : s₁.Alike s := ⟨halike.bindings, halike.output, halike.nextId⟩
    rw [← halike.bindings] at hs₁
    rw [List.append_nil]
    exact ⟨s₁, s, made₁, _, hbefore, halike, hreleased, rfl,
      hinv.congr halike.bindings halike.output halike.nextId, hs₁, hmade⟩

end

end TraceOpt
