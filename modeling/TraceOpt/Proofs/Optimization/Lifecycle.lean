import TraceOpt.Proofs.Optimization.FreshIds
import TraceOpt.Proofs.Optimization.Placement
import TraceOpt.Trace.Hash

/-!
# The life cycle of bindings

While a well-formed trace goes through stages of which one at most puts off allocations, an operand
is bound in a fixed order: at first to nothing, then to an object whose allocation is put off, then
to the allocation that was made for it, and at last to an integer.  Any of these may be left out,
and none comes back.

* `Advances`: what may become of a binding.
* `LifeCycle`: which operands are bound to what, given the allocations made.
* `Passage.lifeCycle`, `Passage.advances`: one operation keeps the life cycle, and bindings advance.
* `feed_lifeCycle`: the life cycle of bindings all along an optimization.
-/

namespace TraceOpt

/-! ### How far a binding has come -/

/-- How far a binding has come: nothing is known, an allocation is put off, an allocation is made,
an integer is known. -/
def bindingRank : Option Value → Nat
  | none => 0
  | some (.blank _) | some (.written ..) => 1
  | some (.operand _) => 2
  | some (.constant _) => 3

/-- What may become of a binding. -/
inductive Advances : Option Value → Option Value → Prop
  /-- It stays as it is. -/
  | same {b : Option Value} : Advances b b
  /-- It comes further. -/
  | further {b b' : Option Value} (h : bindingRank b < bindingRank b') : Advances b b'
  /-- It stays at the same object, with another pending write. -/
  | rewritten {v v' : Value} {o : OpId} (h : v.origin? = some o) (h' : v'.origin? = some o) :
      Advances (some v) (some v')

theorem bindingRank_of_origin? {v : Value} {o : OpId} (h : v.origin? = some o) :
    bindingRank (some v) = 1 := by
  cases v with
  | constant | operand => cases h
  | blank | written => rfl

theorem Advances.trans {a b c : Option Value} (h : Advances a b) (h' : Advances b c) :
    Advances a c := by
  cases h with
  | same => exact h'
  | further hab =>
    cases h' with
    | same => exact .further hab
    | further hbc => exact .further (Nat.lt_trans hab hbc)
    | rewritten hv hv' =>
      rw [bindingRank_of_origin? hv, ← bindingRank_of_origin? hv'] at hab
      exact .further hab
  | rewritten hv hv' =>
    cases h' with
    | same => exact .rewritten hv hv'
    | further hbc =>
      rw [bindingRank_of_origin? hv', ← bindingRank_of_origin? hv] at hbc
      exact .further hbc
    | rewritten hw hw' =>
      rw [hv'] at hw
      obtain rfl := Option.some.inj hw
      exact .rewritten hv hw'

theorem Advances.of_none (v : Value) : Advances none (some v) := by
  cases v <;> exact .further (by simp [bindingRank])

/-- What is not known to be an integer comes further when an integer is learnt. -/
theorem advances_constant [Hashable Operand] {s : Run} {x : Operand}
    (hx : (s.resolve x).isConstant = false) (n : Int64) :
    Advances (s.bindings.find? x) (some (.constant n)) := by
  cases hv : s.bindings.find? x with
  | none => exact .of_none _
  | some v =>
    cases v with
    | constant m =>
      rw [Run.isConstant_of_find? hv] at hx
      cases hx
    | operand | blank | written => exact .further (by simp [bindingRank])

/-! ### What is bound to what -/

/-- The allocation of an object is put off: neither its `new` operation is in the output, nor has an
allocation been made for it. -/
structure PutOff (made : Allocations) (output : List Operation) (o : OpId) : Prop where
  /-- Its `new` operation is not in the output. -/
  absent : ∀ d ∈ output, d.id ≠ o
  /-- No allocation has been made for it. -/
  unmade : ∀ p ∈ made, p.2 ≠ o

/-- Which operands are bound to what, after the operations seen and with the allocations made. -/
structure LifeCycle [Hashable Operand] (seen : List Operation) (made : Allocations) (s : Run) :
    Prop where
  /-- Literals are not bound. -/
  literal : ∀ n, s.bindings.find? (.const n) = none
  /-- An object is bound to its own `new` operation, while its allocation is put off. -/
  object : ∀ x v o, s.bindings.find? x = some v → v.origin? = some o →
    x = .op o ∧ PutOff made s.output.toList o
  /-- An operand is bound to the allocation that was made for it. -/
  operand : ∀ x y, s.bindings.find? x = some (.operand y) → ∃ p ∈ made, x = .op p.2 ∧ y = .op p.1
  /-- Allocations are made for `new` operations of the trace. -/
  new : ∀ p ∈ made, ∃ d ∈ seen, d.kind = .new ∧ d.id = p.2
  /-- Allocations made are in the output. -/
  present : ∀ p ∈ made, allocated p ∈ s.output.toList
  /-- Allocations made are not bound. -/
  unbound : ∀ p ∈ made, s.bindings.find? (.op p.1) = none

section

variable {base : Nat} {seen seen' : List Operation} {made made' : Allocations} {s s' : Run}
  {x : Operand} {v : Value} {o : OpId} {op : Operation} {ps : List Pass}

variable [Hashable Operand]

namespace LifeCycle

/-- An operand that is an object is its own `new` operation. -/
theorem found (h : LifeCycle seen made s) (hx : (s.resolve x).origin? = some o) :
    x = .op o ∧ PutOff made s.output.toList o := h.object x _ o (Run.find?_of_origin? hx) hx

/-- Nothing is bound and nothing goes to the output. -/
theorem still (h : LifeCycle seen made s) (hseen : seen ⊆ seen')
    (hbindings : s'.bindings = s.bindings) (houtput : s'.output = s.output) :
    LifeCycle seen' made s' := by
  obtain ⟨hliteral, hobject, hoperand, hnew, hpresent, hunbound⟩ := h
  refine ⟨?_, ?_, ?_, fun p hp => ?_, ?_, ?_⟩
  · rwa [hbindings]
  · rwa [hbindings, houtput]
  · rwa [hbindings]
  · obtain ⟨d, hd, hdp⟩ := hnew p hp
    exact ⟨d, hseen hd, hdp⟩
  · rwa [houtput]
  · rwa [hbindings]

/-- The log, the counters and the next id do not matter. -/
theorem congr (h : LifeCycle seen made s) (hbindings : s'.bindings = s.bindings)
    (houtput : s'.output = s.output) : LifeCycle seen made s' :=
  h.still (List.Subset.refl _) hbindings houtput

/-- An operand is bound to an integer or an object. -/
theorem bind (h : LifeCycle seen made s) (hs : s.bindings.Valid) (hseen : seen ⊆ seen')
    (hbindings : s'.bindings = (s.bind x v).bindings) (houtput : s'.output = s.output)
    (hx : ∀ n, x ≠ .const n) (hmade : ∀ p ∈ made, x ≠ .op p.1) (hoperand : ∀ y, v ≠ .operand y)
    (hobject : ∀ o, v.origin? = some o → x = .op o ∧ PutOff made s.output.toList o) :
    LifeCycle seen' made s' := by
  have hold : LifeCycle seen' made s := h.still hseen rfl rfl
  have hfind : ∀ y, s'.bindings.find? y = if y = x then some v else s.bindings.find? y := by
    rw [hbindings]
    exact Run.find?_bind_value hs hoperand
  constructor
  case literal =>
    intro n
    rw [hfind, if_neg (hx n).symm]
    exact hold.literal n
  case object =>
    intro y w o hy hw
    rw [hfind] at hy
    rw [houtput]
    split_ifs at hy with hyx
    · obtain rfl := Option.some.inj hy
      rw [hyx]
      exact hobject o hw
    · exact hold.object y w o hy hw
  case operand =>
    intro y z hy
    rw [hfind] at hy
    split_ifs at hy
    · exact absurd (Option.some.inj hy) (hoperand z)
    · exact hold.operand y z hy
  case new => exact hold.new
  case present =>
    rw [houtput]
    exact hold.present
  case unbound =>
    intro p hp
    rw [hfind, if_neg (hmade p hp).symm]
    exact hold.unbound p hp

theorem find?_force (h : LifeCycle seen made s) (hinv : Invariant base seen made s)
    (hp : .allocationSinking ∉ ps) (hx : (s.resolve x).origin? = some o) (y : Operand) :
    (s.force ps x o).bindings.find? y =
      if y = x then some (.operand (.op s.nextId)) else s.bindings.find? y := by
  obtain ⟨rfl, -⟩ := h.found hx
  have hne : o ≠ s.nextId := fun ho =>
    hinv.ne_nextId_of_known (hinv.object hx).1 (congrArg Operand.op ho)
  rw [Run.find?_force hp hinv.valid hinv.find?_nextId hne]
  exact if_congr or_self_iff rfl rfl

/-- The object becomes the allocation that is made for it. -/
theorem force (h : LifeCycle seen made s) (hinv : Invariant base seen made s)
    (hp : .allocationSinking ∉ ps) (hx : (s.resolve x).origin? = some o) :
    LifeCycle seen (made ++ [(s.nextId, o)]) (s.force ps x o) := by
  have hfind := h.find?_force hinv hp hx
  obtain ⟨rfl, -⟩ := h.found hx
  have hbound := Run.find?_of_origin? hx
  have hnext := hinv.find?_nextId
  have hne {i : OpId} {v : Value} (hi : s.bindings.find? (.op i) = some v) : i ≠ s.nextId := by
    rintro rfl
    rw [hnext] at hi
    cases hi
  have houtput : (s.force ps (.op o) o).output.toList = s.output.toList ++ [s.allocation] := by
    rw [Run.output_force_of_notMem hp, Array.toList_push]
  constructor
  case literal =>
    intro n
    rw [hfind, if_neg (by simp)]
    exact h.literal n
  case object =>
    intro y v i hy hv
    rw [hfind] at hy
    split_ifs at hy with hyo
    · obtain rfl := Option.some.inj hy
      cases hv
    · obtain ⟨rfl, habsent, hunmade⟩ := h.object y v i hy hv
      refine ⟨rfl, ?_, List.forall_mem_append.2 ⟨hunmade, List.forall_mem_singleton.2 ?_⟩⟩
      · rw [houtput]
        exact List.forall_mem_append.2 ⟨habsent, List.forall_mem_singleton.2 (hne hy).symm⟩
      · exact fun hoi => hyo (congrArg Operand.op hoi.symm)
  case operand =>
    intro y z hy
    rw [hfind] at hy
    split_ifs at hy with hyo
    · refine ⟨_, List.mem_append_right _ List.mem_cons_self, hyo, ?_⟩
      exact (Value.operand.inj (Option.some.inj hy)).symm
    · obtain ⟨p, hp, hyz⟩ := h.operand y z hy
      exact ⟨p, List.mem_append_left _ hp, hyz⟩
  case new =>
    refine List.forall_mem_append.2 ⟨h.new, List.forall_mem_singleton.2 ?_⟩
    -- a fresh allocation is not bound, so that the object is one of the trace
    rcases (hinv.object hx).2.1 with hnew | ⟨p, hp, rfl⟩
    · exact hnew
    · rw [h.unbound p hp] at hbound
      cases hbound
  case present =>
    rw [houtput]
    refine List.forall_mem_append.2 ⟨fun p hp => ?_, List.forall_mem_singleton.2 ?_⟩
    · exact List.mem_append_left _ (h.present p hp)
    · exact List.mem_append_right _ List.mem_cons_self
  case unbound =>
    refine List.forall_mem_append.2 ⟨fun p hp => ?_, List.forall_mem_singleton.2 ?_⟩
    · have hpo : Operand.op p.1 ≠ .op o := by
        intro hpo
        rw [← hpo, h.unbound p hp] at hbound
        cases hbound
      rw [hfind, if_neg hpo]
      exact h.unbound p hp
    · rw [hfind, if_neg fun ho => hne hbound (Operand.op.inj ho).symm]
      exact hnext

/-- The operation goes to the output with other arguments. -/
theorem emit (h : LifeCycle seen made s) (hinv : Invariant base seen made s)
    (hop : Next base seen op) (args : List Operand) :
    LifeCycle (seen ++ [op]) made (s.emit op args) := by
  have hold : LifeCycle (seen ++ [op]) made s := h.still (List.subset_append_left _ _) rfl rfl
  have houtput : (s.emit op args).output.toList = s.output.toList ++ [{ op with args }] :=
    Array.toList_push
  refine ⟨hold.literal, fun y v o hy hv => ?_, hold.operand, hold.new, fun p hp => ?_,
    hold.unbound⟩
  · obtain ⟨rfl, habsent, hunmade⟩ := hold.object y v o hy hv
    refine ⟨rfl, ?_, hunmade⟩
    rw [houtput]
    refine List.forall_mem_append.2 ⟨habsent, List.forall_mem_singleton.2 ?_⟩
    -- the result of an operation that comes next is not bound
    rintro rfl
    cases (hinv.find?_result hop).symm.trans hy
  · rw [houtput]
    exact List.mem_append_left _ (hold.present p hp)

end LifeCycle

/-! ### Passages -/

theorem Forces.lifeCycle {xs : List Operand} (h : Forces ps xs s s' made')
    (hs : LifeCycle seen made s) (hinv : Invariant base seen made s)
    (hp : .allocationSinking ∉ ps) : LifeCycle seen (made ++ made') s' := by
  induction h generalizing made with
  | nil => rwa [List.append_nil]
  | skip _ _ ih => exact ih hs hinv
  | force hx hid _ ih =>
    rw [List.append_cons]
    exact ih (hs.force hinv hp hx) (hinv.force hx hid ps)

/-- **One operation keeps the life cycle.** -/
theorem Passage.lifeCycle (h : Passage op ps s s' made') (hs : LifeCycle seen made s)
    (hinv : Invariant base seen made s) (hop : Next base seen op)
    (hp : ps.count .allocationSinking ≤ 1) : LifeCycle (seen ++ [op]) (made ++ made') s' := by
  have hseen : seen ⊆ seen ++ [op] := List.subset_append_left _ _
  have hfresh {made : Allocations} {s : Run} (hinv : Invariant base seen made s) :
      ∀ p ∈ made, op.result ≠ .op p.1 := fun p hp hid =>
    hop.ne_of_mem_made hinv.ledger hp (Operand.op.inj hid).symm
  induction h generalizing made with
  | emit =>
    rw [List.append_nil]
    exact hs.emit hinv hop _
  | @fold ps n s =>
    rw [List.append_nil]
    exact hs.bind (x := op.result) (v := .constant n) hinv.valid hseen rfl rfl
      (fun n hn => (nomatch hn)) (hfresh hinv) (fun y hy => (nomatch hy)) fun o ho => (nomatch ho)
  | unfolded _ _ ih | unguarded _ _ ih =>
    exact ih (hs.congr rfl rfl) (hinv.congr rfl rfl rfl) hp
  | elide =>
    rw [List.append_nil]
    exact hs.still hseen rfl rfl
  | @learn ps x s s' made' hk harg hx h ih =>
    have hinv' := h.invariant (hinv.congr rfl rfl rfl) hop
    have hs' := ih (hs.congr rfl rfl) (hinv.congr rfl rfl rfl) hp
    refine hs'.bind (x := x) (v := .constant (Kind.ofTruth op.kind.passes)) hinv'.valid
      (List.Subset.refl _) rfl rfl ?_ ?_ (fun y hy => (nomatch hy)) fun o ho => (nomatch ho)
    · -- nothing is learnt about a literal
      rintro n rfl
      cases hx
    · rintro p hp rfl
      have hdefined := hop.args _ (Operation.mem_args_of_arg harg)
      exact hinv'.not_definedIn_of_mem_made hp (hdefined.mono fun d hd => hseen hd)
  | @postpone ps s =>
    rw [List.append_nil]
    refine hs.bind (x := op.result) (v := .blank op.id) hinv.valid hseen rfl rfl
      (fun n hn => (nomatch hn)) (hfresh hinv) (fun y hy => (nomatch hy)) fun o ho => ?_
    obtain rfl := Option.some.inj ho
    refine ⟨rfl, fun d hd => hinv.id_ne_of_mem_output hop hd, fun p hp => ?_⟩
    obtain ⟨d, hd, -, hid⟩ := hs.new p hp
    rw [← hid]
    exact hop.id_ne d hd
  | @absorb ps x y o s hk harg hx harg' =>
    rw [List.append_nil]
    obtain ⟨rfl, hputOff⟩ := hs.found hx
    have hbound := Run.find?_of_origin? hx
    refine hs.bind (x := .op o) (v := .written o (s.resolve y)) hinv.valid hseen ?_
      (Run.output_bindObject ..) (fun n hn => (nomatch hn)) ?_ (fun y hy => (nomatch hy)) ?_
    · rw [Run.absorb, Run.bindObject_self]
      rfl
    · intro p hp hid
      rw [hid, hs.unbound p hp] at hbound
      cases hbound
    · intro i hi
      obtain rfl := Option.some.inj hi
      exact ⟨rfl, hputOff⟩
  | @force ps s s₁ s' made₁ made₂ hk hset hargs h ih =>
    obtain ⟨hlast, hp⟩ := notMem_of_count_cons_le hp
    have hinv' : Invariant base seen made (s.enter .allocationSinking op) := hinv.congr rfl rfl rfl
    have hs' : LifeCycle seen made (s.enter .allocationSinking op) := hs.congr rfl rfl
    rw [← List.append_assoc]
    exact ih (hargs.lifeCycle hs' hinv' hlast) (hargs.invariant hinv') hp

/-! ### From one state to the next -/

theorem Advances.bind (hs : s.bindings.Valid) (hbindings : s'.bindings = (s.bind x v).bindings)
    (hx : Advances (s.bindings.find? x) (some (s.settle x v))) (y : Operand) :
    Advances (s.bindings.find? y) (s'.bindings.find? y) := by
  rw [hbindings, Run.find?_bind hs]
  split_ifs with hy
  · rwa [← hy]
  · exact .same

theorem Forces.advances {xs : List Operand} (h : Forces ps xs s s' made')
    (hs : LifeCycle seen made s) (hinv : Invariant base seen made s)
    (hp : .allocationSinking ∉ ps) (y : Operand) :
    Advances (s.bindings.find? y) (s'.bindings.find? y) := by
  induction h generalizing made with
  | nil => exact .same
  | skip _ _ ih => exact ih hs hinv
  | @force x xs o s s' made' hx hid _ ih =>
    refine Advances.trans ?_ (ih (hs.force hinv hp hx) (hinv.force hx hid ps))
    rw [hs.find?_force hinv hp hx]
    split_ifs with hy
    · rw [hy, Run.find?_of_origin? hx]
      refine .further ?_
      rw [bindingRank_of_origin? hx]
      exact Nat.lt_succ_self 1
    · exact .same

/-- **Bindings advance** with every operation. -/
theorem Passage.advances (h : Passage op ps s s' made') (hs : LifeCycle seen made s)
    (hinv : Invariant base seen made s) (hop : Next base seen op)
    (hp : ps.count .allocationSinking ≤ 1) (y : Operand) :
    Advances (s.bindings.find? y) (s'.bindings.find? y) := by
  induction h generalizing made with
  | emit | elide => exact .same
  | @fold ps n s =>
    refine .bind (x := op.result) (v := .constant n) hinv.valid rfl ?_ y
    rw [hinv.find?_result hop]
    exact .of_none _
  | unfolded _ _ ih | unguarded _ _ ih =>
    exact ih (hs.congr rfl rfl) (hinv.congr rfl rfl rfl) hp
  | @learn ps x s s' made' hk harg hx h ih =>
    have hafter : (s'.learn op x).bindings.find? y =
        if y = x then some (.constant (Kind.ofTruth op.kind.passes)) else s'.bindings.find? y :=
      Run.find?_bind_value (h.valid hinv.valid) (by simp) y
    rw [hafter]
    split_ifs with hy
    · -- a stage behind this one may have learnt the same, but before the operand was not known
      rw [hy]
      exact advances_constant hx _
    · exact ih (hs.congr rfl rfl) (hinv.congr rfl rfl rfl) hp
  | @postpone ps s =>
    refine .bind (x := op.result) (v := .blank op.id) hinv.valid rfl ?_ y
    rw [hinv.find?_result hop]
    exact .of_none _
  | @absorb ps x z o s hk harg hx harg' =>
    obtain ⟨rfl, -⟩ := hs.found hx
    refine .bind (x := .op o) (v := .written o (s.resolve z)) hinv.valid ?_ ?_ y
    · rw [Run.absorb, Run.bindObject_self]
      rfl
    · rw [Run.find?_of_origin? hx]
      exact .rewritten hx rfl
  | @force ps s s₁ s' made₁ made₂ hk hset hargs h ih =>
    obtain ⟨hlast, hp⟩ := notMem_of_count_cons_le hp
    have hinv' : Invariant base seen made (s.enter .allocationSinking op) := hinv.congr rfl rfl rfl
    have hs' : LifeCycle seen made (s.enter .allocationSinking op) := hs.congr rfl rfl
    exact (hargs.advances hs' hinv' hlast y).trans
      (ih (hargs.lifeCycle hs' hinv' hlast) (hargs.invariant hinv') hp)

/-! ### Whole traces -/

variable {ops : List Operation}

/-- **Feeding a trace keeps the life cycle.** -/
theorem Feeds.lifeCycle (h : Feeds ps ops s s' made') (hs : LifeCycle seen made s)
    (hinv : Invariant base seen made s) (hops : Continues base seen ops)
    (hp : ps.count .allocationSinking ≤ 1) : LifeCycle (seen ++ ops) (made ++ made') s' := by
  induction h generalizing seen made with
  | nil => rwa [List.append_nil, List.append_nil]
  | @cons op ops s s₁ s' made₁ made₂ hop _ ih =>
    have hs' : LifeCycle seen made s.next := hs.congr rfl rfl
    have hinv' : Invariant base seen made s.next := hinv.congr rfl rfl rfl
    rw [List.append_cons, ← List.append_assoc]
    exact ih (hop.lifeCycle hs' hinv' hops.next hp) (hop.invariant hinv' hops.next) hops.rest

theorem Feeds.advances (h : Feeds ps ops s s' made') (hs : LifeCycle seen made s)
    (hinv : Invariant base seen made s) (hops : Continues base seen ops)
    (hp : ps.count .allocationSinking ≤ 1) (y : Operand) :
    Advances (s.bindings.find? y) (s'.bindings.find? y) := by
  induction h generalizing seen made with
  | nil => exact .same
  | @cons op ops s s₁ s' made₁ made₂ hop _ ih =>
    have hs' : LifeCycle seen made s.next := hs.congr rfl rfl
    have hinv' : Invariant base seen made s.next := hinv.congr rfl rfl rfl
    exact (hop.advances hs' hinv' hops.next hp y).trans
      (ih (hop.lifeCycle hs' hinv' hops.next hp) (hop.invariant hinv' hops.next) hops.rest)

theorem lifeCycle_start (t : Trace) (ps : List Pass) (first : OpId) :
    LifeCycle [] [] (t.startOf ps first) := by
  have hnone : ∀ x, (t.startOf ps first).bindings.find? x = none := fun _ => rfl
  refine ⟨fun n => hnone _, fun x v o hx => ?_, fun x y hx => ?_, ?_, ?_, ?_⟩
  · rw [hnone] at hx
    cases hx
  · rw [hnone] at hx
    cases hx
  all_goals exact fun p hp => nomatch hp

/-- Feeding operations that follow others goes on from the state that these lead to. -/
theorem feed_split {stages : List Stage} {before after : List Operation}
    (h : feed stages (before ++ after) s = .ok () s') :
    ∃ s₁, feed stages before s = .ok () s₁ ∧ feed stages after s₁ = .ok () s' := by
  induction before generalizing s with
  | nil => exact ⟨s, rfl, h⟩
  | cons op before ih =>
    rw [List.cons_append, feed, Action.bind_of_ok (Action.count_apply ..)] at h
    obtain ⟨_, s₂, hop, hrest⟩ := Action.bind_eq_ok h
    obtain ⟨s₁, hbefore, hafter⟩ := ih hrest
    refine ⟨s₁, ?_, hafter⟩
    rw [feed, Action.bind_of_ok (Action.count_apply ..), Action.bind_of_ok hop]
    exact hbefore

/-- No two operands are bound to the same allocation. -/
theorem LifeCycle.eq_of_operand (h : LifeCycle seen made s) (hmade : (made.map Prod.fst).Nodup)
    {x' y : Operand} (hx : s.bindings.find? x = some (.operand y))
    (hx' : s.bindings.find? x' = some (.operand y)) : x' = x := by
  obtain ⟨p, hp, rfl, rfl⟩ := h.operand x y hx
  obtain ⟨q, hq, rfl, hid⟩ := h.operand x' _ hx'
  rw [List.inj_on_of_nodup_map hmade hp hq (Operand.op.inj hid)]

end

/-- **The life cycle of bindings.**  Let a well-formed trace go through stages of which one at most
puts off allocations.  After any number of its operations:

* No literal is bound.
* What is bound to an object is its own `new` operation, and neither this operation nor an
  allocation for it is in the output.
* What is bound to another operand is a `new` operation of the trace.  The other operand is the
  fresh allocation that was made for it and is in the output; it is not bound, and nothing else is
  bound to it.

From there to any later state bindings advance, and known integers stay as they are. -/
theorem feed_lifeCycle [Hashable Operand] (passes : List Pass)
    (hp : passes.count .allocationSinking ≤ 1) (t : Trace) (ht : t.WellFormed) (first : OpId)
    (hfirst : t.nextFreeId? = some first) (i : Nat) (s : Run)
    (h : feed (passes.map Pass.stage) (t.ops.take i) (t.startOf passes first) = .ok () s) :
    (∃ made, Feeds passes (t.ops.take i) (t.startOf passes first) s made ∧
      (∀ n, s.bindings.find? (.const n) = none) ∧
      (∀ x v o, s.bindings.find? x = some v → v.origin? = some o →
        x = .op o ∧ PutOff made s.output.toList o) ∧
      ∀ x y, s.bindings.find? x = some (.operand y) →
        (∃ d ∈ t.ops.take i, d.kind = .new ∧ x = d.result ∧
          ∃ a, first ≤ a ∧ (a, d.id) ∈ made ∧ allocated (a, d.id) ∈ s.output.toList ∧ y = .op a) ∧
        s.bindings.find? y = none ∧
        ∀ x', s.bindings.find? x' = some (.operand y) → x' = x) ∧
    ∀ j s', i ≤ j →
      feed (passes.map Pass.stage) (t.ops.take j) (t.startOf passes first) = .ok () s' →
      ∀ x, Advances (s.bindings.find? x) (s'.bindings.find? x) ∧
        ∀ n, s.bindings.find? x = some (.constant n) →
          s'.bindings.find? x = some (.constant n) := by
  have hcontinues (j : Nat) : Continues t.idBound [] (t.ops.take j) :=
    (ht.take j).continues fun op hop => Trace.lt_idBound (List.mem_of_mem_take hop)
  have hstart := invariant_start hfirst (t.startOf passes first).log
  obtain ⟨made, hfeeds⟩ := Feeds.of_feed h
  have hinv : Invariant t.idBound (t.ops.take i) made s := hfeeds.invariant hstart (hcontinues i)
  have hs : LifeCycle (t.ops.take i) made s :=
    hfeeds.lifeCycle (lifeCycle_start t passes first) hstart (hcontinues i) hp
  refine ⟨⟨made, hfeeds, hs.literal, hs.object, fun x y hx => ⟨?_, ?_, fun x' hx' => ?_⟩⟩, ?_⟩
  · obtain ⟨p, hp, rfl, rfl⟩ := hs.operand x y hx
    obtain ⟨d, hd, hk, hid⟩ := hs.new p hp
    refine ⟨d, hd, hk, by rw [← hid]; rfl, p.1, ?_, ?_, ?_, rfl⟩
    · rw [UInt32.le_iff_toNat_le, Trace.toNat_of_nextFreeId? hfirst]
      exact (hinv.ledger.fresh p hp).1
    · rwa [hid]
    · rw [hid]
      exact hs.present p hp
  · obtain ⟨p, hp, -, rfl⟩ := hs.operand x y hx
    exact hs.unbound p hp
  · exact hs.eq_of_operand hfeeds.numbered.nodup hx hx'
  · intro j s' hij hj x
    -- the run to the later state goes through this one
    have hops : t.ops.take j = t.ops.take i ++ (t.ops.take j).drop i := by
      conv_lhs => rw [← List.take_append_drop i (t.ops.take j), List.take_take,
        Nat.min_eq_left hij]
    have hrest := hcontinues j
    rw [hops] at hj hrest
    obtain ⟨s₁, hbefore, hafter⟩ := feed_split hj
    obtain rfl : s₁ = s := by
      rw [hbefore] at h
      cases h
      rfl
    obtain ⟨made', hfeeds'⟩ := Feeds.of_feed hafter
    exact ⟨hfeeds'.advances hs hinv hrest.split.2 hp x,
      fun n hn => hfeeds'.find?_constant hinv hrest.split.2 hn⟩

/-- An object is written to, escapes and is checked; another one stays unused. -/
def outlived : Trace :=
  ⟨0, [⟨0, .new, [], some .ref⟩, ⟨1, .new, [], some .ref⟩, ⟨2, .setField, [.op 0, .const 7], none⟩,
    ⟨3, .call, [.op 0], some .ref⟩, ⟨4, .guardTrue, [.op 0], none⟩]⟩

/-- After the call the first object is its allocation and the other one is put off; after the guard
the first object is known to be an integer. -/
theorem outlived_lifeCycle :
    outlived.WellFormed ∧ outlived.nextFreeId? = some 5 ∧
      ∃ s s', feed (Level.release.passes.map Pass.stage) (outlived.ops.take 4)
          (outlived.startOf Level.release.passes 5) = .ok () s ∧
        feed (Level.release.passes.map Pass.stage) (outlived.ops.take 5)
          (outlived.startOf Level.release.passes 5) = .ok () s' ∧
        s.bindings.find? (.op 1) = some (.blank 1) ∧ (∀ d ∈ s.output.toList, d.id ≠ 1) ∧
        s.bindings.find? (.op 0) = some (.operand (.op 5)) ∧ s.bindings.find? (.op 5) = none ∧
        s'.bindings.find? (.op 0) = some (.constant 1) ∧
        Advances (s.bindings.find? (.op 0)) (s'.bindings.find? (.op 0)) := by
  obtain ⟨⟨made, -, -, hobject, hoperand⟩, hlater⟩ :=
    feed_lifeCycle Level.release.passes (by decide) outlived (by decide) 5 rfl 4 _ rfl
  refine ⟨by decide, rfl, _, _, rfl, rfl, rfl, ?_, rfl, ?_, rfl, ?_⟩
  · exact (hobject (.op 1) (.blank 1) 1 rfl rfl).2.absent
  · exact (hoperand (.op 0) (.op 5) rfl).2.1
  · exact (hlater 5 _ (by decide) rfl (.op 0)).1

end TraceOpt
