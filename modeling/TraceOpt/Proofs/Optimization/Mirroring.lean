import TraceOpt.Proofs.Optimization.Idempotence

/-!
# Optimizing under other ids

An optimization asks of ids whether they are equal, and counts unused ones up from the first.  It
therefore takes the same course under other ids.  This is shown by a simulation: two states *mirror*
each other if they differ in ids only, and every action of the stages leads from such states to such
states, or ends in both in the same fault, unless ids run out in one of them.

* `Relabelling`: other ids that keep ids in use apart and are counted up alike.
* `Run.Mirrors`: two states that differ in ids only, with a lemma for each effect on the state.
* `Matches`: two outcomes of an action that differ in ids only.
* `forward_matches`, `feed_matches`: one operation, and all operations one after another.
-/

namespace TraceOpt

/-! ### Other ids -/

/-- A value under other ids. -/
def Value.rename (f : OpId → OpId) : Value → Value
  | constant n => constant n
  | operand x => operand (x.rename f)
  | blank origin => blank (f origin)
  | written origin field => written (f origin) (field.rename f)

/-- A fault under other ids. -/
def Fault.rename (f : OpId → OpId) : Fault → Fault
  | guardContradiction op guard value => guardContradiction (f op) guard value
  | missingHandler kind => missingHandler kind
  | notConstant value => notConstant (value.rename f)
  | arity op kind expected got => arity (f op) kind expected got
  | escapedVirtual origin => escapedVirtual (f origin)
  | overflow => overflow

/-- An operand that names no id but those in use. -/
def Operand.Within (used : OpId → Prop) : Operand → Prop
  | .op id => used id
  | _ => True

/-- A value that names no id but those in use. -/
def Value.Within (used : OpId → Prop) : Value → Prop
  | constant _ => True
  | operand x => x.Within used
  | blank origin => used origin
  | written origin field => used origin ∧ field.Within used

/-- An operation that names no id but those in use. -/
structure Operation.Within (used : OpId → Prop) (op : Operation) : Prop where
  /-- Its own id is in use. -/
  id : used op.id
  /-- Its arguments name ids in use. -/
  args : ∀ x ∈ op.args, x.Within used

/-- Other ids for an optimization: ids in use stay different, and fresh ids are counted up as
before, as long as there is a next one on both sides. -/
structure Relabelling where
  /-- The other id. -/
  map : OpId → OpId
  /-- The ids that the trace or the optimization may use. -/
  used : OpId → Prop
  /-- The ids that the optimization may give out. -/
  fresh : OpId → Prop
  inj : ∀ {i j : OpId}, used i → used j → map i = map j → i = j
  used_of_fresh : ∀ {i : OpId}, fresh i → used i
  next : ∀ {i : OpId}, fresh i → i ≠ OpId.last → map i ≠ OpId.last →
    fresh (i + 1) ∧ map (i + 1) = map i + 1

section

variable {ρ : Relabelling} {f g : OpId → OpId} {used : OpId → Prop} {x y : Operand} {v : Value}
  {op : Operation}

theorem Operand.rename_eq_iff (hx : x.Within ρ.used) (hy : y.Within ρ.used) :
    x.rename ρ.map = y.rename ρ.map ↔ x = y := by
  constructor
  · intro h
    cases x with
    | op i =>
      cases y with
      | op j => rw [ρ.inj hx hy (Operand.op.inj h)]
      | input | const => cases h
    | input | const =>
      cases y <;> cases h
      rfl
  · rintro rfl
    rfl

@[simp] theorem Operation.kind_rename (f : OpId → OpId) (op : Operation) :
    (op.rename f).kind = op.kind := rfl

@[simp] theorem Operation.args_rename (f : OpId → OpId) (op : Operation) :
    (op.rename f).args = op.args.map (Operand.rename f) := rfl

theorem Operation.Within.mono {used' : OpId → Prop} (h : op.Within used)
    (hsub : ∀ {id}, used id → used' id) : op.Within used' := by
  refine ⟨hsub h.id, fun x hx => ?_⟩
  have hwithin := h.args x hx
  cases x with
  | op => exact hsub hwithin
  | input | const => trivial

/-- Renamings that agree on the ids in use rename an operation alike. -/
theorem Operation.rename_congr (h : op.Within used) (hfg : ∀ id, used id → f id = g id) :
    op.rename f = op.rename g := by
  have hargs : op.args.map (Operand.rename f) = op.args.map (Operand.rename g) := by
    refine List.map_congr_left fun x hx => ?_
    have hwithin := h.args x hx
    cases x with
    | op id => exact congrArg Operand.op (hfg id hwithin)
    | input | const => rfl
  rw [rename, rename, hfg op.id h.id, hargs]

@[simp] theorem Value.origin?_rename (f : OpId → OpId) (v : Value) :
    (v.rename f).origin? = v.origin?.map f := by
  cases v <;> rfl

theorem Value.Within.origin {origin : OpId} (h : v.Within used) (ho : v.origin? = some origin) :
    used origin := by
  cases v with
  | constant | operand => cases ho
  | blank =>
    cases ho
    exact h
  | written =>
    cases ho
    exact h.1

theorem Operation.arg_rename (f : OpId → OpId) (op : Operation) (i : Nat) :
    (op.rename f).arg i = ((op.arg i).map (Operand.rename f)).mapError (Fault.rename f) := by
  unfold arg
  rw [args_rename, List.getElem?_map, List.length_map]
  cases op.args[i]? with
  | some x => rfl
  | none =>
    simp only [Option.map_none]
    split_ifs <;> rfl

/-- Folding looks at integers only. -/
theorem ConstantFolding.result?_rename (f : OpId → OpId) (kind : Kind) (vs : List Value) :
    result? kind (vs.map (Value.rename f)) = result? kind vs := by
  match vs with
  | [] => rfl
  | [v] => cases v <;> rfl
  | [v, w] => cases v <;> cases w <;> rfl
  | v :: w :: z :: vs => cases v <;> cases w <;> rfl

end

/-! ### States that differ in ids only -/

namespace Run

/-- Two states that differ in ids only; what they have logged does not matter. -/
structure Mirrors [Hashable Operand] (ρ : Relabelling) (s s' : Run) : Prop where
  valid : s.bindings.Valid
  valid' : s'.bindings.Valid
  /-- The same is known about the same operands. -/
  find?_rename : ∀ x : Operand, x.Within ρ.used →
    s'.bindings.find? (x.rename ρ.map) = (s.bindings.find? x).map (Value.rename ρ.map)
  /-- What is known names ids in use only. -/
  within : ∀ x v, s.bindings.find? x = some v → v.Within ρ.used
  /-- The same has been put out. -/
  output : s'.output.toList = s.output.toList.map (Operation.rename ρ.map)
  fresh : ρ.fresh s.nextId
  nextId : s'.nextId = ρ.map s.nextId
  tally : s'.tally = s.tally

namespace Mirrors

variable {ρ : Relabelling} {s s' : Run} {x : Operand} {v : Value} {op : Operation}

/-! What operands resolve to. -/

variable [Hashable Operand]

theorem resolve (h : Mirrors ρ s s') (hx : x.Within ρ.used) :
    s'.resolve (x.rename ρ.map) = (s.resolve x).rename ρ.map := by
  cases x with
  | const => rfl
  | input | op =>
    have hfind := h.find?_rename _ hx
    simp only [Operand.rename] at hfind
    simp only [Operand.rename, Run.resolve, HashTrie.findD, hfind]
    cases s.bindings.find? _ <;> rfl

theorem resolve_within (h : Mirrors ρ s s') (hx : x.Within ρ.used) :
    (s.resolve x).Within ρ.used := by
  rcases s.resolve_cases x with ⟨n, -, hn⟩ | hbound | ⟨-, hself⟩
  · rw [hn]
    trivial
  · exact h.within x _ hbound
  · rw [hself]
    exact hx

theorem settle (h : Mirrors ρ s s') (hx : x.Within ρ.used) (hv : v.Within ρ.used) :
    s'.settle (x.rename ρ.map) (v.rename ρ.map) = (s.settle x v).rename ρ.map := by
  cases v with
  | operand y =>
    simp only [Value.rename, Run.settle, Operand.rename_eq_iff hv hx]
    split_ifs
    · rfl
    · exact h.resolve hv
  | constant | blank | written => rfl

theorem settle_within (h : Mirrors ρ s s') (hv : v.Within ρ.used) :
    (s.settle x v).Within ρ.used := by
  cases v with
  | operand y =>
    simp only [Run.settle]
    split_ifs
    · exact hv
    · exact h.resolve_within hv
  | constant | blank | written => exact hv

theorem origin? (h : Mirrors ρ s s') (hx : x.Within ρ.used) :
    (s'.resolve (x.rename ρ.map)).origin? = (s.resolve x).origin?.map ρ.map := by
  rw [h.resolve hx, Value.origin?_rename]

theorem place (h : Mirrors ρ s s') (hx : x.Within ρ.used) :
    s'.place (x.rename ρ.map) =
      ((s.place x).map (Operand.rename ρ.map)).mapError (Fault.rename ρ.map) := by
  unfold Run.place
  rw [h.resolve hx]
  cases s.resolve x <;> rfl

/-- The operands that hold the values of arguments, or the first fault among them. -/
theorem mapM_place (h : Mirrors ρ s s') {xs : List Operand} (hxs : ∀ x ∈ xs, x.Within ρ.used) :
    (xs.map (Operand.rename ρ.map)).mapM s'.place =
      ((xs.mapM s.place).map (List.map (Operand.rename ρ.map))).mapError
        (Fault.rename ρ.map) := by
  induction xs with
  | nil => rfl
  | cons x xs ih =>
    obtain ⟨hx, hxs⟩ := List.forall_mem_cons.1 hxs
    rw [List.map_cons, List.mapM_cons, List.mapM_cons, h.place hx, ih hxs]
    cases s.place x with
    | error => rfl
    | ok => cases xs.mapM s.place <;> rfl

/-! Effects on the state. -/

theorem logged (h : Mirrors ρ s s') (log log' : Array Event) :
    Mirrors ρ { s with log := log } { s' with log := log' } :=
  ⟨h.valid, h.valid', h.find?_rename, h.within, h.output, h.fresh, h.nextId, h.tally⟩

theorem note (h : Mirrors ρ s s') (e e' : Event) : Mirrors ρ (s.note e) (s'.note e') :=
  h.logged _ _

theorem count (h : Mirrors ρ s s') (f : Tally → Tally) : Mirrors ρ (s.count f) (s'.count f) :=
  ⟨h.valid, h.valid', h.find?_rename, h.within, h.output, h.fresh, h.nextId,
    congrArg f h.tally⟩

theorem enter (h : Mirrors ρ s s') (p : Pass) (op : Operation) :
    Mirrors ρ (s.enter p op) (s'.enter p (op.rename ρ.map)) :=
  (h.note _ _).count _

theorem bind (h : Mirrors ρ s s') (hx : x.Within ρ.used) (hv : v.Within ρ.used) :
    Mirrors ρ (s.bind x v) (s'.bind (x.rename ρ.map) (v.rename ρ.map)) where
  valid := valid_bind h.valid x v
  valid' := valid_bind h.valid' _ _
  find?_rename := by
    intro y hy
    rw [find?_bind h.valid, find?_bind h.valid', h.settle hx hv]
    simp only [Operand.rename_eq_iff hx hy]
    split_ifs
    · rfl
    · exact h.find?_rename y hy
  within := by
    intro y w hw
    rw [find?_bind h.valid] at hw
    split_ifs at hw
    · rw [← Option.some.inj hw]
      exact h.settle_within hv
    · exact h.within y w hw
  output := h.output
  fresh := h.fresh
  nextId := h.nextId
  tally := h.tally

theorem bindObject (h : Mirrors ρ s s') {origin : OpId} (ho : ρ.used origin)
    (hx : x.Within ρ.used) (hv : v.Within ρ.used) :
    Mirrors ρ (s.bindObject origin x v)
      (s'.bindObject (ρ.map origin) (x.rename ρ.map) (v.rename ρ.map)) := by
  have heq : x.rename ρ.map = .op (ρ.map origin) ↔ x = .op origin :=
    Operand.rename_eq_iff hx (y := .op origin) ho
  have hfirst := h.bind (x := .op origin) ho hv
  simp only [Run.bindObject, heq]
  split_ifs
  · exact hfirst
  · exact hfirst.bind hx hv

theorem emit (h : Mirrors ρ s s') (op : Operation) (args : List Operand) :
    Mirrors ρ (s.emit op args)
      (s'.emit (op.rename ρ.map) (args.map (Operand.rename ρ.map))) where
  valid := h.valid
  valid' := h.valid'
  find?_rename := h.find?_rename
  within := h.within
  output := by
    rw [toList_emit, toList_emit, h.output, List.map_append]
    rfl
  fresh := h.fresh
  nextId := h.nextId
  tally := h.tally

theorem fold (h : Mirrors ρ s s') (hop : op.Within ρ.used) (n : Int64) :
    Mirrors ρ (s.fold op n) (s'.fold (op.rename ρ.map) n) :=
  ((h.note _ _).bind (x := op.result) (v := .constant n) hop.id trivial).count _

theorem elide (h : Mirrors ρ s s') (op : Operation) (x : Operand) (n : Int64) :
    Mirrors ρ (s.elide op x n) (s'.elide (op.rename ρ.map) (x.rename ρ.map) n) :=
  (h.note _ _).count _

theorem learn (h : Mirrors ρ s s') (op : Operation) (hx : x.Within ρ.used) :
    Mirrors ρ (s.learn op x) (s'.learn (op.rename ρ.map) (x.rename ρ.map)) :=
  (h.bind (v := .constant _) hx trivial).count _

theorem postpone (h : Mirrors ρ s s') (hop : op.Within ρ.used) :
    Mirrors ρ (s.postpone op) (s'.postpone (op.rename ρ.map)) :=
  (h.bind (x := op.result) (v := .blank op.id) hop.id hop.id).count _

theorem absorb (h : Mirrors ρ s s') (op : Operation) {origin : OpId} (ho : ρ.used origin)
    (hx : x.Within ρ.used) (hv : v.Within ρ.used) :
    Mirrors ρ (s.absorb op origin x v)
      (s'.absorb (op.rename ρ.map) (ρ.map origin) (x.rename ρ.map) (v.rename ρ.map)) :=
  ((h.note _ _).bindObject (v := .written origin v) ho hx ⟨ho, hv⟩).count _

theorem dropWrite (h : Mirrors ρ s s') (object object' : Value) (id id' : OpId) :
    Mirrors ρ (s.dropWrite object id) (s'.dropWrite object' id') := by
  unfold Run.dropWrite
  split <;> split <;> exact h.logged _ _

theorem allocate (h : Mirrors ρ s s') (hop : op.Within ρ.used) (ps : List Pass) :
    Mirrors ρ (allocate op ps s) (allocate (op.rename ρ.map) ps s') := by
  induction ps generalizing s s' with
  | nil => exact h.emit op []
  | cons p ps ih =>
    cases p with
    | constantFolding | guardPropagation => exact ih (h.enter _ op)
    | allocationSinking => exact (h.enter _ op).postpone hop

/-- An object is allocated under the next unused id of either state. -/
theorem force (h : Mirrors ρ s s') (ps : List Pass) {origin : OpId} (hx : x.Within ρ.used)
    (ho : ρ.used origin) (hid : s.nextId ≠ OpId.last) (hid' : s'.nextId ≠ OpId.last) :
    Mirrors ρ (s.force ps x origin) (s'.force ps (x.rename ρ.map) (ρ.map origin)) := by
  rw [h.nextId] at hid'
  obtain ⟨hfresh, hmap⟩ := ρ.next h.fresh hid hid'
  have hused : ρ.used s.nextId := ρ.used_of_fresh h.fresh
  have hstart : Mirrors ρ { s with nextId := s.nextId + 1 } { s' with nextId := s'.nextId + 1 } :=
    ⟨h.valid, h.valid', h.find?_rename, h.within, h.output, hfresh, by rw [h.nextId, hmap],
      h.tally⟩
  have hallocation : s'.allocation = s.allocation.rename ρ.map := by
    rw [Run.allocation, h.nextId]
    rfl
  have hwithin : s.allocation.Within ρ.used := ⟨hused, fun y hy => nomatch hy⟩
  have hallocate := hstart.allocate hwithin ps
  rw [← hallocation] at hallocate
  have hresult : s'.allocation.result = s.allocation.result.rename ρ.map := by
    rw [hallocation]
    rfl
  unfold Run.force
  rw [hresult]
  exact ((hallocate.dropWrite _ _ _ _).bindObject ho hx (v := .operand s.allocation.result)
    hused).count _

end Mirrors

end Run

/-! ### Outcomes that differ in ids only -/

/-- Two outcomes of an action that differ in ids only, unless ids have run out in one of them. -/
inductive Matches [Hashable Operand] (ρ : Relabelling) :
    EStateM.Result Fault Run Unit → EStateM.Result Fault Run Unit → Prop
  | ok {s s' : Run} (h : s.Mirrors ρ s') : Matches ρ (.ok () s) (.ok () s')
  | error {s s' : Run} (e : Fault) : Matches ρ (.error e s) (.error (e.rename ρ.map) s')
  | overflow {s : Run} {r : EStateM.Result Fault Run Unit} : Matches ρ (.error .overflow s) r
  | overflow' {s : Run} {r : EStateM.Result Fault Run Unit} : Matches ρ r (.error .overflow s)

namespace Matches

variable [Hashable Operand]
variable {ρ : Relabelling} {s s' : Run} {x : Operand} {op : Operation} {ps : List Pass}

theorem bind {a a' : Action Unit} {k k' : Unit → Action Unit} (h : Matches ρ (a s) (a' s'))
    (hk : ∀ {s s' : Run}, s.Mirrors ρ s' → Matches ρ (k () s) (k' () s')) :
    Matches ρ ((a >>= k) s) ((a' >>= k') s') := by
  generalize hr : a s = r, hr' : a' s' = r' at h
  cases h with
  | ok h =>
    rw [Action.bind_of_ok hr, Action.bind_of_ok hr']
    exact hk h
  | error e =>
    rw [Action.bind_of_error hr, Action.bind_of_error hr']
    exact .error e
  | overflow =>
    rw [Action.bind_of_error hr]
    exact .overflow
  | overflow' =>
    rw [Action.bind_of_error hr']
    exact .overflow'

/-! ### One stage -/

theorem forceAll {xs : List Operand} (hxs : ∀ x ∈ xs, x.Within ρ.used) (h : s.Mirrors ρ s') :
    Matches ρ (AllocationSinking.forceAll (Stage.forward (ps.map Pass.stage)) xs s)
      (AllocationSinking.forceAll (Stage.forward (ps.map Pass.stage))
        (xs.map (Operand.rename ρ.map)) s') := by
  induction xs generalizing s s' with
  | nil => exact .ok h
  | cons x xs ih =>
    obtain ⟨hx, hxs⟩ := List.forall_mem_cons.1 hxs
    rw [List.map_cons]
    unfold AllocationSinking.forceAll
    rw [Action.bind_of_ok (Action.resolve_apply s x),
      Action.bind_of_ok (Action.resolve_apply s' (x.rename ρ.map)), h.origin? hx]
    cases ho : (s.resolve x).origin? with
    | none => exact ih hxs h
    | some origin =>
      refine bind ?_ fun hs => ih hxs hs
      rw [AllocationSinking.force_apply, AllocationSinking.force_apply]
      split_ifs with hid hid' hid'
      · exact .overflow
      · exact .overflow
      · exact .overflow'
      · exact .ok (h.force ps hx ((h.resolve_within hx).origin ho) hid hid')

/-! Below, `ih` is what is to be shown for the stages that come after the first. -/

section

variable {rest : Sink} (hop : op.Within ρ.used) (h : s.Mirrors ρ s')
  (ih : ∀ {s s' : Run}, s.Mirrors ρ s' → Matches ρ (rest op s) (rest (op.rename ρ.map) s'))
include hop h ih

theorem constantFolding :
    Matches ρ (ConstantFolding.stage.handle rest op s)
      (ConstantFolding.stage.handle rest (op.rename ρ.map) s') := by
  have hvalues : (op.args.map (Operand.rename ρ.map)).map s'.resolve =
      (op.args.map s.resolve).map (Value.rename ρ.map) := by
    rw [List.map_map, List.map_map]
    exact List.map_congr_left fun x hx => h.resolve (hop.args x hx)
  rw [ConstantFolding.handle_eq, ConstantFolding.handle_eq, Operation.kind_rename]
  split_ifs with hk
  · rw [ConstantFolding.fold_apply, ConstantFolding.fold_apply, Operation.kind_rename,
      Operation.args_rename, List.length_map, hvalues, ConstantFolding.result?_rename]
    split_ifs with htwo
    · cases ConstantFolding.result? op.kind (op.args.map s.resolve) with
      | some n => exact .ok (h.fold hop n)
      | none => exact ih h
    · exact .error (.arity op.id op.kind 2 op.args.length)
  · exact ih h

theorem guardPropagation :
    Matches ρ (GuardPropagation.stage.handle rest op s)
      (GuardPropagation.stage.handle rest (op.rename ρ.map) s') := by
  rw [GuardPropagation.handle_eq, GuardPropagation.handle_eq, Operation.kind_rename]
  split_ifs with hk
  · rw [GuardPropagation.propagate_apply, GuardPropagation.propagate_apply, Operation.kind_rename,
      Operation.arg_rename]
    cases harg : op.arg 0 with
    | error e => exact .error e
    | ok x =>
      have hx := hop.args x (Operation.mem_args_of_arg harg)
      simp only [Except.map, Except.mapError, h.resolve hx]
      cases s.resolve x with
      | constant n =>
        simp only [Value.rename]
        split_ifs
        · exact .ok (h.elide op x n)
        · exact .error (.guardContradiction op.id op.kind n)
      | operand | blank | written =>
        -- a guard that stays goes to the rest first, and is learnt from on the way back
        have hrest := ih h
        simp only [Value.rename]
        generalize rest op s = r, rest (op.rename ρ.map) s' = r' at hrest ⊢
        cases hrest with
        | ok h => exact .ok (h.learn op hx)
        | error e => exact .error e
        | overflow => exact .overflow
        | overflow' => exact .overflow'
  · exact ih h

end

section

variable (hop : op.Within ρ.used) (h : s.Mirrors ρ s')
  (ih : ∀ {s s' : Run}, s.Mirrors ρ s' → Matches ρ (Stage.forward (ps.map Pass.stage) op s)
    (Stage.forward (ps.map Pass.stage) (op.rename ρ.map) s'))
include hop h ih

theorem forceArgs :
    Matches ρ (AllocationSinking.forceArgs (Stage.forward (ps.map Pass.stage)) op s)
      (AllocationSinking.forceArgs (Stage.forward (ps.map Pass.stage)) (op.rename ρ.map) s') :=
  bind (forceAll hop.args h) ih

theorem absorb :
    Matches ρ (AllocationSinking.absorb (Stage.forward (ps.map Pass.stage)) op s)
      (AllocationSinking.absorb (Stage.forward (ps.map Pass.stage)) (op.rename ρ.map) s') := by
  rw [AllocationSinking.absorb_apply, AllocationSinking.absorb_apply, Operation.arg_rename,
    Operation.arg_rename]
  cases harg : op.arg 0 with
  | error e => exact .error e
  | ok x =>
    have hx := hop.args x (Operation.mem_args_of_arg harg)
    simp only [Except.map, Except.mapError, h.origin? hx]
    cases ho : (s.resolve x).origin? with
    | none => exact forceArgs hop h ih
    | some origin =>
      cases harg' : op.arg 1 with
      | error e => exact .error e
      | ok y =>
        have hy := hop.args y (Operation.mem_args_of_arg harg')
        simp only [Option.map_some, h.resolve hy]
        exact .ok (h.absorb op ((h.resolve_within hx).origin ho) hx (h.resolve_within hy))

theorem allocationSinking :
    Matches ρ (AllocationSinking.stage.handle (Stage.forward (ps.map Pass.stage)) op s)
      (AllocationSinking.stage.handle (Stage.forward (ps.map Pass.stage))
        (op.rename ρ.map) s') := by
  rw [AllocationSinking.handle_eq, AllocationSinking.handle_eq, Operation.kind_rename]
  cases op.kind with
  | new => exact .ok (h.postpone hop)
  | setField => exact absorb hop h ih
  | _ => exact forceArgs hop h ih

end

end Matches

/-! ### All stages -/

section

variable [Hashable Operand]
variable {ρ : Relabelling} {s s' : Run} {op : Operation}

/-- **An operation under other ids takes the same way through stages.** -/
theorem forward_matches (ps : List Pass) (hop : op.Within ρ.used) (h : s.Mirrors ρ s') :
    Matches ρ (Stage.forward (ps.map Pass.stage) op s)
      (Stage.forward (ps.map Pass.stage) (op.rename ρ.map) s') := by
  induction ps generalizing s s' with
  | nil =>
    rw [List.map_nil, Stage.forward_nil, Stage.forward_nil, Action.emit, Action.emit,
      Operation.args_rename, h.mapM_place hop.args]
    cases op.args.mapM s.place with
    | error e => exact .error e
    | ok args => exact .ok (h.emit op args)
  | cons p ps ih =>
    rw [Stage.forward_cons_enter, Stage.forward_cons_enter]
    have hentered := h.enter p op
    cases p with
    | constantFolding => exact .constantFolding hop hentered ih
    | guardPropagation => exact .guardPropagation hop hentered ih
    | allocationSinking => exact .allocationSinking hop hentered ih

theorem feed_matches (ps : List Pass) {ops : List Operation}
    (hops : ∀ op ∈ ops, op.Within ρ.used) (h : s.Mirrors ρ s') :
    Matches ρ (feed (ps.map Pass.stage) ops s)
      (feed (ps.map Pass.stage) (ops.map (Operation.rename ρ.map)) s') := by
  induction ops generalizing s s' with
  | nil => exact .ok h
  | cons op ops ih =>
    obtain ⟨hop, hops⟩ := List.forall_mem_cons.1 hops
    rw [List.map_cons, feed, feed, Action.bind_of_ok (Action.count_apply ..),
      Action.bind_of_ok (Action.count_apply ..)]
    exact (forward_matches ps hop (h.count _)).bind fun hs => ih hops hs

end

end TraceOpt
