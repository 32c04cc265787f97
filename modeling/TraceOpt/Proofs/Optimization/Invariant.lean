import TraceOpt.Proofs.Optimization.Ledger
import TraceOpt.Proofs.Optimization.Soundness

/-!
# What holds all along an optimization

While the operations of a well-formed trace go through stages, every operand that a later operation
may use is bound or stands in the output, and values refer to nothing but objects and operations of
the output.

* `Invariant.still`, `Invariant.bind`, `Invariant.push`: the elementary changes of a state.
* `Passage.invariant`, `Feeds.invariant`: passages keep the invariant.
* `Passage.find?_constant`: what is known to be an integer stays so.
-/

namespace TraceOpt

/-! ### The invariant -/

/-- An operand that may be used: an input, a result seen or a fresh allocation. -/
def Known (seen : List Operation) (made : Allocations) (x : Operand) : Prop :=
  x.DefinedIn seen ∨ ∃ p ∈ made, x = .op p.1

/-- A value that an operand may be bound to. -/
structure Admissible (seen : List Operation) (made : Allocations) (output : List Operation)
    (x : Operand) (v : Value) : Prop where
  /-- The operand may be used. -/
  known : Known seen made x
  /-- Only inputs and results of the trace are integers. -/
  constant : v.isConstant = true → x.DefinedIn seen
  /-- Other operands are results in the output. -/
  operand : ∀ y, v = .operand y → ∃ d ∈ output, d.kind.hasResult = true ∧ y = d.result
  /-- A `new` operation of the trace is the object of no operand but its own result. -/
  object : ∀ o, v.origin? = some o → IsObject seen made o ∧ (x = .op o ∨ ∃ p ∈ made, p.1 = o)

/-- Operations that are assembled from those seen and the allocations made. -/
structure Assembled (seen : List Operation) (made : Allocations) (output : List Operation) :
    Prop where
  /-- Each is an operation seen, with other arguments, or an allocation. -/
  named : ∀ d ∈ output, (∃ e ∈ seen, e.id = d.id ∧ e.kind = d.kind) ∨ ∃ p ∈ made, allocated p = d
  /-- Every id names one of them. -/
  distinct : (output.map (·.id)).Nodup
  /-- Results are used after the operation that gives them. -/
  in_scope : Scoped [] output
  /-- Inputs are used that are used by operations seen. -/
  inputs : ∀ d ∈ output, ∀ n, .input n ∈ d.args → ∃ e ∈ seen, .input n ∈ e.args

/-- What holds of a state after the operations seen, with the allocations made. -/
structure Invariant [Hashable Operand] (base : Nat) (seen : List Operation) (made : Allocations)
    (s : Run) : Prop where
  /-- The bindings are a map. -/
  valid : s.bindings.Valid
  /-- The ids are in order. -/
  ledger : Ledger base seen made s.nextId
  /-- Operands are bound to values that they may be bound to. -/
  admissible : ∀ x v, s.bindings.find? x = some v → Admissible seen made s.output.toList x v
  /-- Every operand that may be used is bound or stands in the output. -/
  covered : ∀ x, Known seen made x → s.bindings.find? x = none → x.DefinedIn s.output.toList
  /-- The output is assembled from the trace. -/
  output : Assembled seen made s.output.toList

section

variable {seen seen' : List Operation} {made made' : Allocations} {output output' : List Operation}
  {x y : Operand} {v : Value} {op : Operation}

theorem Known.mono (h : Known seen made x) (hseen : seen ⊆ seen') (hmade : made ⊆ made') :
    Known seen' made' x := by
  rcases h with h | ⟨p, hp, hx⟩
  · exact Or.inl (h.mono fun d hd => hseen hd)
  · exact Or.inr ⟨p, hmade hp, hx⟩

theorem IsObject.mono {o : OpId} (h : IsObject seen made o) (hseen : seen ⊆ seen')
    (hmade : made ⊆ made') : IsObject seen' made' o := by
  rcases h with ⟨d, hd, h⟩ | ⟨p, hp, h⟩
  · exact Or.inl ⟨d, hseen hd, h⟩
  · exact Or.inr ⟨p, hmade hp, h⟩

theorem Admissible.mono (h : Admissible seen made output x v) (hseen : seen ⊆ seen')
    (hmade : made ⊆ made') (houtput : output ⊆ output') : Admissible seen' made' output' x v := by
  refine ⟨h.known.mono hseen hmade, fun hv => (h.constant hv).mono fun d hd => hseen hd,
    fun y hv => ?_, fun o hv => ?_⟩
  · obtain ⟨d, hd, hy⟩ := h.operand y hv
    exact ⟨d, houtput hd, hy⟩
  · obtain ⟨ho, hxo⟩ := h.object o hv
    exact ⟨ho.mono hseen hmade, hxo.imp_right fun ⟨p, hp, hpo⟩ => ⟨p, hmade hp, hpo⟩⟩

theorem Assembled.mono (h : Assembled seen made output) (hseen : seen ⊆ seen')
    (hmade : made ⊆ made') : Assembled seen' made' output := by
  refine ⟨fun d hd => ?_, h.distinct, h.in_scope, fun d hd n hn => ?_⟩
  · rcases h.named d hd with ⟨e, he, hed⟩ | ⟨p, hp, hpd⟩
    · exact Or.inl ⟨e, hseen he, hed⟩
    · exact Or.inr ⟨p, hmade hp, hpd⟩
  · obtain ⟨e, he, hen⟩ := h.inputs d hd n hn
    exact ⟨e, hseen he, hen⟩

theorem Assembled.push (h : Assembled seen made output) (hnew : ∀ d ∈ output, d.id ≠ op.id)
    (hnamed : (∃ e ∈ seen, e.id = op.id ∧ e.kind = op.kind) ∨ ∃ p ∈ made, allocated p = op)
    (hargs : ∀ x ∈ op.args, x.DefinedIn output)
    (hinputs : ∀ n, .input n ∈ op.args → ∃ e ∈ seen, .input n ∈ e.args) :
    Assembled seen made (output ++ [op]) := by
  refine ⟨?_, ?_, ?_, ?_⟩
  · exact List.forall_mem_append.2 ⟨h.named, List.forall_mem_singleton.2 hnamed⟩
  · rw [List.map_append, List.nodup_append]
    refine ⟨h.distinct, List.nodup_singleton _, fun i hi j hj => ?_⟩
    obtain ⟨d, hd, rfl⟩ := List.mem_map.1 hi
    rw [List.mem_singleton.1 hj]
    exact hnew d hd
  · exact scoped_append.2 ⟨h.in_scope, scoped_singleton.2 hargs⟩
  · exact List.forall_mem_append.2 ⟨h.inputs, List.forall_mem_singleton.2 hinputs⟩

theorem known_of_isObject {o : OpId} (h : IsObject seen made o) : Known seen made (.op o) := by
  rcases h with ⟨d, hd, hk, rfl⟩ | ⟨p, hp, rfl⟩
  · exact Or.inl ⟨d, hd, by rw [hk]; rfl, rfl⟩
  · exact Or.inr ⟨p, hp, rfl⟩

/-- What one more operation of the trace makes known. -/
theorem known_append_seen (h : Known (seen ++ [op]) made x) :
    Known seen made x ∨ op.kind.hasResult = true ∧ x = op.result := by
  rcases h with h | h
  · exact h.append_singleton.imp_left Or.inl
  · exact Or.inl (Or.inr h)

/-- What one more allocation makes known. -/
theorem known_append_made {p : OpId × OpId} (h : Known seen (made ++ [p]) x) :
    Known seen made x ∨ x = .op p.1 := by
  rcases h with h | ⟨q, hq, rfl⟩
  · exact Or.inl (Or.inl h)
  · rcases List.mem_append.1 hq with hq | hq
    · exact Or.inl (Or.inr ⟨q, hq, rfl⟩)
    · rw [List.mem_singleton.1 hq]
      exact Or.inr rfl

end

/-! ### Elementary changes -/

namespace Invariant

variable [Hashable Operand]
variable {base : Nat} {seen seen' : List Operation} {made made' : Allocations} {s s' : Run}
  {x y : Operand} {v : Value} {op : Operation}

/-- Nothing is bound and nothing goes to the output. -/
theorem still (h : Invariant base seen made s) (hseen : seen ⊆ seen')
    (hbindings : s'.bindings = s.bindings) (houtput : s'.output = s.output)
    (hledger : Ledger base seen' made s'.nextId)
    (hknown : ∀ x, Known seen' made x → Known seen made x) : Invariant base seen' made s' := by
  constructor
  case valid =>
    rw [hbindings]
    exact h.valid
  case ledger => exact hledger
  case admissible =>
    intro x v hx
    rw [hbindings] at hx
    rw [houtput]
    exact (h.admissible x v hx).mono hseen (List.Subset.refl _) (List.Subset.refl _)
  case covered =>
    intro x hx hnone
    rw [hbindings] at hnone
    rw [houtput]
    exact h.covered x (hknown x hx) hnone
  case output =>
    rw [houtput]
    exact h.output.mono hseen (List.Subset.refl _)

/-- The log and the counters do not matter. -/
theorem congr (h : Invariant base seen made s) (hbindings : s'.bindings = s.bindings)
    (houtput : s'.output = s.output) (hnext : s'.nextId = s.nextId) :
    Invariant base seen made s' := by
  refine h.still (List.Subset.refl _) hbindings houtput ?_ fun _ hx => hx
  rw [hnext]
  exact h.ledger

/-- An operand is bound. -/
theorem bind (h : Invariant base seen made s) (hseen : seen ⊆ seen') (hmade : made ⊆ made')
    (hbindings : s'.bindings = (s.bind x v).bindings) (houtput : s'.output = s.output)
    (hledger : Ledger base seen' made' s'.nextId)
    (hknown : ∀ y, Known seen' made' y → Known seen made y ∨ y = x)
    (hv : Admissible seen' made' s.output.toList x (s.settle x v)) :
    Invariant base seen' made' s' := by
  constructor
  case valid =>
    rw [hbindings]
    exact Run.valid_bind h.valid x v
  case ledger => exact hledger
  case admissible =>
    intro y v' hy
    rw [hbindings, Run.find?_bind h.valid] at hy
    rw [houtput]
    split_ifs at hy with hxy
    · obtain rfl := Option.some.inj hy
      rwa [← hxy]
    · exact (h.admissible y v' hy).mono hseen hmade (List.Subset.refl _)
  case covered =>
    intro y hy hnone
    rw [hbindings, Run.find?_bind h.valid] at hnone
    rw [houtput]
    split_ifs at hnone with hxy
    exact h.covered y ((hknown y hy).resolve_right fun h' => hxy h'.symm) hnone
  case output =>
    rw [houtput]
    exact h.output.mono hseen hmade

/-- An operation goes to the output. -/
theorem push (h : Invariant base seen made s) (hseen : seen ⊆ seen') (hmade : made ⊆ made')
    (hbindings : s'.bindings = s.bindings) (houtput : s'.output = s.output.push op)
    (hledger : Ledger base seen' made' s'.nextId)
    (hknown : ∀ y, Known seen' made' y →
      Known seen made y ∨ op.kind.hasResult = true ∧ y = op.result)
    (hpush : Assembled seen' made' (s.output.toList ++ [op])) : Invariant base seen' made' s' := by
  have hlist : s'.output.toList = s.output.toList ++ [op] := by
    rw [houtput, Array.toList_push]
  have hsub : s.output.toList ⊆ s.output.toList ++ [op] := List.subset_append_left _ _
  constructor
  case valid =>
    rw [hbindings]
    exact h.valid
  case ledger => exact hledger
  case admissible =>
    intro y v hy
    rw [hbindings] at hy
    rw [hlist]
    exact (h.admissible y v hy).mono hseen hmade hsub
  case covered =>
    intro y hy hnone
    rw [hbindings] at hnone
    rw [hlist]
    rcases hknown y hy with hy | ⟨hk, rfl⟩
    · exact (h.covered y hy hnone).mono fun d hd => hsub hd
    · exact Operand.definedIn_result (List.mem_append_right _ List.mem_cons_self) hk
  case output => rwa [hlist]

/-- The id of a fresh allocation names no result of the trace. -/
theorem not_definedIn_of_mem_made (h : Invariant base seen made s) {p : OpId × OpId}
    (hp : p ∈ made) : ¬ (Operand.op p.1).DefinedIn seen := by
  rintro ⟨d, hd, -, hid⟩
  have hlt := h.ledger.seen_lt d hd
  have hle := (h.ledger.fresh p hp).1
  rw [hid] at hlt
  omega

/-- The next unused id names nothing that may be used. -/
theorem ne_nextId_of_known (h : Invariant base seen made s) (hx : Known seen made x) :
    x ≠ .op s.nextId := by
  rintro rfl
  rcases hx with ⟨d, hd, -, hid⟩ | ⟨p, hp, hid⟩
  · have hlt := h.ledger.seen_lt d hd
    have hle := h.ledger.base_le
    rw [hid] at hlt
    omega
  · have hlt := (h.ledger.fresh p hp).2
    rw [← Operand.op.inj hid] at hlt
    exact Nat.lt_irrefl _ hlt

theorem find?_nextId (h : Invariant base seen made s) : s.bindings.find? (.op s.nextId) = none :=
  Option.eq_none_iff_forall_ne_some.2 fun v hv =>
    h.ne_nextId_of_known (h.admissible _ v hv).known rfl

theorem lt_nextId_of_mem_output (h : Invariant base seen made s) {d : Operation}
    (hd : d ∈ s.output.toList) : d.id.toNat < s.nextId.toNat := by
  rcases h.output.named d hd with ⟨e, he, hid, -⟩ | ⟨p, hp, rfl⟩
  · rw [← hid]
    exact Nat.lt_of_lt_of_le (h.ledger.seen_lt e he) h.ledger.base_le
  · exact (h.ledger.fresh p hp).2

theorem ne_nextId_of_mem_output (h : Invariant base seen made s) {d : Operation}
    (hd : d ∈ s.output.toList) : d.id ≠ s.nextId := by
  have hlt := h.lt_nextId_of_mem_output hd
  intro hid
  rw [hid] at hlt
  exact Nat.lt_irrefl _ hlt

/-- What is known about an operand that is an object. -/
theorem object (h : Invariant base seen made s) {o : OpId}
    (hx : (s.resolve x).origin? = some o) :
    Known seen made x ∧ IsObject seen made o ∧ (x = .op o ∨ ∃ p ∈ made, p.1 = o) := by
  have hv := h.admissible x _ (Run.find?_of_origin? hx)
  exact ⟨hv.known, hv.object o hx⟩

/-- An operand becomes the same as a fresh allocation. -/
theorem identify (h : Invariant base seen made s) {p : OpId × OpId} (hp : p ∈ made)
    (hx : Known seen made x) (hne : x ≠ .op p.1) :
    Invariant base seen made (s.bind x (.operand (.op p.1))) := by
  refine h.bind (List.Subset.refl _) (List.Subset.refl _) rfl rfl h.ledger
    (fun y hy => Or.inl hy) ?_
  have hsettle : s.settle x (.operand (.op p.1)) = s.resolve (.op p.1) := if_neg hne.symm
  rw [hsettle]
  rcases s.resolve_cases (.op p.1) with ⟨n, hn, -⟩ | hbound | ⟨hnone, hself⟩
  · cases hn
  · -- a later stage put the allocation off, or gave it another name
    have hv := h.admissible _ _ hbound
    refine ⟨hx, fun hc => absurd (hv.constant hc) (h.not_definedIn_of_mem_made hp), hv.operand,
      fun o ho => ?_⟩
    obtain ⟨hobject, hxo⟩ := hv.object o ho
    refine ⟨hobject, Or.inr ?_⟩
    rcases hxo with hxo | hxo
    · exact ⟨p, hp, Operand.op.inj hxo⟩
    · exact hxo
  · -- the allocation stands in the output
    obtain ⟨d, hd, hk, hid⟩ := h.covered _ (Or.inr ⟨p, hp, rfl⟩) hnone
    rw [hself]
    refine ⟨hx, fun hc => (nomatch hc), fun y hy => ?_, fun o ho => (nomatch ho)⟩
    obtain rfl := Value.operand.inj hy
    exact ⟨d, hd, hk, by rw [Operation.result, hid]⟩

theorem allocate (h : Invariant base seen made s) {o : OpId} (ho : IsObject seen made o)
    (hid : s.nextId ≠ OpId.last) (ps : List Pass) :
    Invariant base seen (made ++ [(s.nextId, o)])
      (Run.allocate s.allocation ps { s with nextId := s.nextId + 1 }) := by
  have hledger := h.ledger.allocate ho hid
  have hmem : (s.nextId, o) ∈ made ++ [(s.nextId, o)] := List.mem_append_right _ List.mem_cons_self
  have hsub : made ⊆ made ++ [(s.nextId, o)] := List.subset_append_left _ _
  rcases Run.allocate_cases s.allocation ps { s with nextId := s.nextId + 1 } with
    ⟨hbindings, houtput⟩ | ⟨hbindings, houtput⟩
  · have hbound : _ = (s.bind (.op s.nextId) (.blank s.nextId)).bindings := hbindings
    refine h.bind (List.Subset.refl _) hsub hbound houtput ?_ (fun y hy => known_append_made hy)
      ⟨?_, fun hc => (nomatch hc), fun y hy => (nomatch hy), fun i hi => ?_⟩
    · rwa [Run.nextId_allocate]
    · exact Or.inr ⟨_, hmem, rfl⟩
    · obtain rfl := Option.some.inj hi
      exact ⟨Or.inr ⟨_, hmem, rfl⟩, Or.inl rfl⟩
  · refine h.push (List.Subset.refl _) hsub hbindings houtput ?_ (fun y hy => ?_) ?_
    · rwa [Run.nextId_allocate]
    · exact (known_append_made hy).imp_right fun hy => ⟨rfl, hy⟩
    · refine (h.output.mono (List.Subset.refl _) hsub).push (fun d hd => ?_) (Or.inr ⟨_, hmem, rfl⟩)
        (fun x hx => (nomatch hx)) (fun n hn => (nomatch hn))
      exact h.ne_nextId_of_mem_output hd

theorem force (h : Invariant base seen made s) {o : OpId}
    (hx : (s.resolve x).origin? = some o) (hid : s.nextId ≠ OpId.last) (ps : List Pass) :
    Invariant base seen (made ++ [(s.nextId, o)]) (s.force ps x o) := by
  obtain ⟨hknown, hobject, -⟩ := h.object hx
  have hmem : (s.nextId, o) ∈ made ++ [(s.nextId, o)] := List.mem_append_right _ List.mem_cons_self
  have hsub : made ⊆ made ++ [(s.nextId, o)] := List.subset_append_left _ _
  have ho : Known seen made (.op o) := known_of_isObject hobject
  -- the allocation goes through the rest of the stages, and the pending write is lost
  have hallocated := h.allocate hobject hid ps
  have hdropped := hallocated.congr (Run.bindings_dropWrite _ (s.resolve x) s.nextId)
    (Run.output_dropWrite ..) (Run.nextId_dropWrite ..)
  -- the object becomes the result of the allocation, and so does the operand that led to it
  have horigin := hdropped.identify hmem (ho.mono (List.Subset.refl _) hsub)
    (h.ne_nextId_of_known ho)
  have hfound := horigin.identify hmem (hknown.mono (List.Subset.refl _) hsub)
    (h.ne_nextId_of_known hknown)
  unfold Run.force Run.bindObject
  split_ifs
  · exact horigin.congr rfl rfl rfl
  · exact hfound.congr rfl rfl rfl

/-- A write is recorded on an object, for the operand that it was found by and for its own id. -/
theorem record (h : Invariant base seen made s) {o : OpId}
    (hx : (s.resolve x).origin? = some o) (stored : Value) :
    Invariant base seen made (s.bindObject o x (.written o stored)) := by
  obtain ⟨hknown, hobject, hxo⟩ := h.object hx
  have hbind : ∀ {s : Run} {y : Operand}, Invariant base seen made s → Known seen made y →
      (y = .op o ∨ ∃ p ∈ made, p.1 = o) →
      Invariant base seen made (s.bind y (.written o stored)) := by
    intro s y hs hy hyo
    refine hs.bind (List.Subset.refl _) (List.Subset.refl _) rfl rfl hs.ledger
      (fun z hz => Or.inl hz) ⟨hy, fun hc => (nomatch hc), fun z hz => (nomatch hz), fun i hi => ?_⟩
    obtain rfl := Option.some.inj hi
    exact ⟨hobject, hyo⟩
  have horigin := hbind h (known_of_isObject hobject) (Or.inl rfl)
  unfold Run.bindObject
  split_ifs
  · exact horigin
  · exact hbind horigin hknown hxo

/-- An operand that holds the value of another in the output is a literal, that other operand, or a
result in the output. -/
theorem place_cases (h : Invariant base seen made s) (hy : s.place x = .ok y) :
    (∃ n, y = .const n) ∨ (y = x ∧ s.bindings.find? x = none) ∨
      ∃ d ∈ s.output.toList, d.kind.hasResult = true ∧ y = d.result := by
  unfold Run.place at hy
  cases hv : s.resolve x with
  | constant n =>
    rw [hv] at hy
    cases hy
    exact Or.inl ⟨n, rfl⟩
  | operand z =>
    rw [hv] at hy
    cases hy
    rcases s.resolve_cases x with ⟨n, -, hn⟩ | hbound | ⟨hnone, hself⟩
    · rw [hn] at hv
      cases hv
    · exact Or.inr (Or.inr ((h.admissible x _ hbound).operand y hv))
    · exact Or.inr (Or.inl ⟨(Value.operand.inj (hself.symm.trans hv)).symm, hnone⟩)
  | blank | written =>
    rw [hv] at hy
    cases hy

theorem definedIn_place (h : Invariant base seen made s) (hx : x.DefinedIn seen)
    (hy : s.place x = .ok y) : y.DefinedIn s.output.toList := by
  rcases h.place_cases hy with ⟨n, rfl⟩ | ⟨rfl, hnone⟩ | ⟨d, hd, hk, rfl⟩
  · trivial
  · exact h.covered y (Or.inl hx) hnone
  · exact Operand.definedIn_result hd hk

theorem eq_input_of_place (h : Invariant base seen made s) {n : UInt32}
    (hx : s.place x = .ok (.input n)) : x = .input n := by
  rcases h.place_cases hx with ⟨m, hm⟩ | ⟨hxn, -⟩ | ⟨d, -, -, hd⟩
  · cases hm
  · exact hxn.symm
  · cases hd

end Invariant

/-! ### Passages -/

/-- An operation of the trace that may come after those seen. -/
structure Next (base : Nat) (seen : List Operation) (op : Operation) : Prop where
  /-- Its id is below the bound. -/
  id_lt : op.id.toNat < base
  /-- Its id is not in use. -/
  id_ne : ∀ d ∈ seen, d.id ≠ op.id
  /-- Its arguments are results seen. -/
  args : ∀ x ∈ op.args, x.DefinedIn seen

section

variable {base : Nat} {seen : List Operation} {made made' : Allocations} {s s' : Run}
  {x : Operand} {op : Operation} {ps : List Pass}

/-- Fresh ids are not those of the trace. -/
theorem Next.ne_of_mem_made {nextId : OpId} (hop : Next base seen op)
    (h : Ledger base seen made nextId) {p : OpId × OpId} (hp : p ∈ made) : p.1 ≠ op.id := by
  intro hid
  have hle := (h.fresh p hp).1
  rw [hid] at hle
  exact Nat.not_lt_of_le hle hop.id_lt

theorem Operation.mem_args_of_arg {i : Nat} (h : op.arg i = .ok x) : x ∈ op.args :=
  List.mem_of_getElem? (arg_eq_ok_iff.1 h)

variable [Hashable Operand]

theorem Forces.invariant {xs : List Operand} (h : Forces ps xs s s' made')
    (hs : Invariant base seen made s) : Invariant base seen (made ++ made') s' := by
  induction h generalizing made with
  | nil => rwa [List.append_nil]
  | skip _ _ ih => exact ih hs
  | force hx hid _ ih =>
    rw [List.append_cons]
    exact ih (hs.force hx hid ps)

namespace Invariant

variable (hs : Invariant base seen made s) (hop : Next base seen op)
include hs hop

/-- The result of the operation is bound. -/
theorem settle (v : Value) (hs' : s'.bindings = (s.bind op.result v).bindings)
    (houtput : s'.output = s.output) (hnext : s'.nextId = s.nextId)
    (hv : Admissible (seen ++ [op]) made s.output.toList op.result (s.settle op.result v)) :
    Invariant base (seen ++ [op]) made s' := by
  refine hs.bind (List.subset_append_left _ _) (List.Subset.refl _) hs' houtput ?_
    (fun y hy => ?_) hv
  · rw [hnext]
    exact hs.ledger.see hop.id_lt
  · exact (known_append_seen hy).imp_right And.right

/-- The operation has no result. -/
theorem see (hs' : s'.bindings = s.bindings) (houtput : s'.output = s.output)
    (hnext : s'.nextId = s.nextId) (hk : op.kind.hasResult = false) :
    Invariant base (seen ++ [op]) made s' := by
  refine hs.still (List.subset_append_left _ _) hs' houtput ?_ (fun y hy => ?_)
  · rw [hnext]
    exact hs.ledger.see hop.id_lt
  · refine (known_append_seen hy).resolve_right fun h => ?_
    rw [hk] at h
    cases h.1

/-- The output holds no operation of that id. -/
theorem id_ne_of_mem_output {d : Operation} (hd : d ∈ s.output.toList) : d.id ≠ op.id := by
  rcases hs.output.named d hd with ⟨e, he, hid, -⟩ | ⟨p, hp, rfl⟩
  · rw [← hid]
    exact hop.id_ne e he
  · exact hop.ne_of_mem_made hs.ledger hp

theorem emit {args : List Operand} (hargs : op.args.mapM s.place = .ok args) :
    Invariant base (seen ++ [op]) made (s.emit op args) := by
  have hmem : op ∈ seen ++ [op] := List.mem_append_right _ List.mem_cons_self
  have hsub : seen ⊆ seen ++ [op] := List.subset_append_left _ _
  have hplaced := Run.placed_of_mapM hargs
  refine hs.push hsub (List.Subset.refl _) rfl rfl (hs.ledger.see hop.id_lt) (fun y hy => ?_) ?_
  · have hy' := known_append_seen hy
    exact hy'
  · refine (hs.output.mono hsub (List.Subset.refl _)).push
      (fun d hd => hs.id_ne_of_mem_output hop hd) (Or.inl ⟨op, hmem, rfl, rfl⟩) (fun y hy => ?_)
      (fun n hn => ⟨op, hmem, ?_⟩)
    · obtain ⟨x, hx, hplace⟩ := Run.exists_of_mem_placed hplaced hy
      exact hs.definedIn_place (hop.args x hx) hplace
    · obtain ⟨x, hx, hplace⟩ := Run.exists_of_mem_placed hplaced hn
      rwa [← hs.eq_input_of_place hplace]

end Invariant

/-- **Passages keep the invariant.** -/
theorem Passage.invariant (h : Passage op ps s s' made') (hs : Invariant base seen made s)
    (hop : Next base seen op) : Invariant base (seen ++ [op]) (made ++ made') s' := by
  have hmem : op ∈ seen ++ [op] := List.mem_append_right _ List.mem_cons_self
  induction h generalizing made with
  | emit hargs =>
    rw [List.append_nil]
    exact hs.emit hop hargs
  | fold hk hn =>
    rw [List.append_nil]
    have hdef := Operand.definedIn_result hmem (Kind.hasResult_of_mem_arithmetic hk)
    exact hs.settle hop (.constant _) rfl rfl rfl
      ⟨Or.inl hdef, fun _ => hdef, fun y hy => (nomatch hy), fun o ho => (nomatch ho)⟩
  | unfolded _ _ ih | unguarded _ _ ih => exact ih (hs.congr rfl rfl rfl)
  | elide hk =>
    rw [List.append_nil]
    exact hs.see hop rfl rfl rfl (Kind.hasResult_of_mem_guards hk)
  | @learn ps x s s' made' hk harg hx h ih =>
    have hs' := ih (hs.congr rfl rfl rfl)
    have hdef : x.DefinedIn (seen ++ [op]) :=
      (hop.args x (Operation.mem_args_of_arg harg)).mono fun d hd => List.mem_append_left _ hd
    refine hs'.bind (List.Subset.refl _) (List.Subset.refl _) rfl rfl hs'.ledger
      (fun y hy => Or.inl hy) ?_
    exact ⟨Or.inl hdef, fun _ => hdef, fun y hy => (nomatch hy), fun o ho => (nomatch ho)⟩
  | postpone hk =>
    rw [List.append_nil]
    have hdef := Operand.definedIn_result hmem (by rw [hk]; rfl)
    refine hs.settle hop (.blank op.id) rfl rfl rfl
      ⟨Or.inl hdef, fun hc => (nomatch hc), fun y hy => (nomatch hy), fun o ho => ?_⟩
    obtain rfl := Option.some.inj ho
    exact ⟨Or.inl ⟨op, hmem, hk, rfl⟩, Or.inl rfl⟩
  | @absorb ps x y o s hk harg hx harg' =>
    rw [List.append_nil]
    have hs' : Invariant base seen made
        ((s.enter .allocationSinking op).note (.absorbed op (.written o (s.resolve y)))) :=
      hs.congr rfl rfl rfl
    exact (hs'.record hx _).see hop rfl rfl rfl (by rw [hk]; rfl)
  | force hk hset hargs h ih =>
    rw [← List.append_assoc]
    exact ih (hargs.invariant (hs.congr rfl rfl rfl))

/-! ### Known integers -/

/-- An operand known to be an integer is no object, nor one that an object stands for. -/
theorem Invariant.ne_of_constant (h : Invariant base seen made s) {y : Operand} {n : Int64}
    {o : OpId} (hy : s.bindings.find? y = some (.constant n))
    (hx : (s.resolve x).origin? = some o) :
    y ≠ x ∧ y ≠ .op o := by
  have hbound := Run.find?_of_origin? hx
  have hyx : y ≠ x := by
    rintro rfl
    rw [hy] at hbound
    rw [← Option.some.inj hbound] at hx
    cases hx
  refine ⟨hyx, ?_⟩
  rcases (h.object hx).2.2 with rfl | ⟨p, hp, rfl⟩
  · exact hyx
  · -- fresh allocations are no operands of the trace, and only these are known to be integers
    rintro rfl
    exact h.not_definedIn_of_mem_made hp ((h.admissible _ _ hy).constant rfl)

theorem Forces.find?_constant {xs : List Operand} (h : Forces ps xs s s' made')
    (hs : Invariant base seen made s) {y : Operand} {n : Int64}
    (hy : s.bindings.find? y = some (.constant n)) :
    s'.bindings.find? y = some (.constant n) := by
  induction h generalizing made with
  | nil => exact hy
  | skip _ _ ih => exact ih hs hy
  | force hx hid _ ih =>
    obtain ⟨hyx, hyo⟩ := hs.ne_of_constant hy hx
    have hynew := hs.ne_nextId_of_known (hs.admissible _ _ hy).known
    refine ih (hs.force hx hid ps) ?_
    rw [Run.find?_force_of_ne hs.valid hyx hyo hynew, hy]

/-- The result of an operation that comes next is not bound. -/
theorem Invariant.find?_result (h : Invariant base seen made s) (hop : Next base seen op) :
    s.bindings.find? op.result = none := by
  refine Option.eq_none_iff_forall_ne_some.2 fun v hv => ?_
  rcases (h.admissible _ _ hv).known with ⟨d, hd, -, hid⟩ | ⟨p, hp, hid⟩
  · exact hop.id_ne d hd hid
  · exact hop.ne_of_mem_made h.ledger hp (Operand.op.inj hid).symm

/-- **What is known to be an integer stays so.** -/
theorem Passage.find?_constant (h : Passage op ps s s' made') (hs : Invariant base seen made s)
    (hop : Next base seen op) {y : Operand} {n : Int64}
    (hy : s.bindings.find? y = some (.constant n)) :
    s'.bindings.find? y = some (.constant n) := by
  have hresult : y ≠ op.result := by
    rintro rfl
    rw [hs.find?_result hop] at hy
    cases hy
  induction h generalizing made with
  | emit | elide => exact hy
  | fold | postpone =>
    rw [← hy]
    refine Run.find?_bind_of_ne ?_ hresult
    exact hs.valid
  | unfolded _ _ ih | unguarded _ _ ih => exact ih (hs.congr rfl rfl rfl) hy
  | learn hk harg hx h ih =>
    rw [← ih (hs.congr rfl rfl rfl) hy]
    refine Run.find?_bind_of_ne (h.valid hs.valid) ?_
    -- nothing is learnt from a guard whose operand is known: it is elided
    rintro rfl
    rw [Run.isConstant_of_find? hy] at hx
    cases hx
  | absorb hk harg hx harg' =>
    obtain ⟨hyx, hyo⟩ := hs.ne_of_constant hy hx
    rw [← hy]
    refine Run.find?_bindObject_of_ne ?_ hyx hyo
    exact hs.valid
  | @force ps s s₁ s' made₁ made₂ hk hset hargs h ih =>
    have hs' : Invariant base seen made (s.enter .allocationSinking op) := hs.congr rfl rfl rfl
    exact ih (hargs.invariant hs') (hargs.find?_constant hs' hy)

end

/-! ### Whole traces -/

/-- Operations of the trace that may come after those seen. -/
structure Continues (base : Nat) (seen ops : List Operation) : Prop where
  /-- Their ids are below the bound. -/
  id_lt : ∀ op ∈ ops, op.id.toNat < base
  /-- Every id names one operation. -/
  distinct : ((seen ++ ops).map (·.id)).Nodup
  /-- Results are used after the operation that gives them. -/
  in_scope : Scoped seen ops

namespace Continues

variable {base : Nat} {seen ops : List Operation} {op : Operation}

theorem next (h : Continues base seen (op :: ops)) : Next base seen op := by
  refine ⟨h.id_lt op List.mem_cons_self, fun d hd => ?_, h.in_scope.1⟩
  have hdistinct := h.distinct
  rw [List.map_append, List.nodup_append] at hdistinct
  exact hdistinct.2.2 _ (List.mem_map_of_mem hd) _ List.mem_cons_self

theorem rest (h : Continues base seen (op :: ops)) : Continues base (seen ++ [op]) ops := by
  refine ⟨fun d hd => h.id_lt d (List.mem_cons_of_mem _ hd), ?_, h.in_scope.2⟩
  rw [← List.append_cons]
  exact h.distinct

end Continues

theorem Trace.WellFormed.continues {t : Trace} (h : t.WellFormed) {base : Nat}
    (hbase : ∀ op ∈ t.ops, op.id.toNat < base) : Continues base [] t.ops :=
  ⟨hbase, h.distinct, h.in_scope⟩

variable [Hashable Operand]

/-- The invariant holds when nothing is known. -/
theorem invariant_start {t : Trace} {id : OpId} (hid : t.nextFreeId? = some id)
    (log : Array Event) : Invariant t.idBound [] [] { Run.start id with log } := by
  have hnone : ∀ x, (HashTrie.empty : Bindings).find? x = none := fun _ => rfl
  have hle : t.idBound ≤ id.toNat := Nat.le_of_eq (Trace.toNat_of_nextFreeId? hid).symm
  have hledger : Ledger t.idBound [] [] id := by
    refine ⟨hle, ?_, ?_, ?_, ?_, ?_⟩ <;> exact fun _ h => nomatch h
  refine ⟨HashTrie.valid_empty, hledger, fun x v hx => ?_, fun x hx _ => ?_,
    ⟨fun _ h => (nomatch h), List.nodup_nil, trivial, fun _ h => (nomatch h)⟩⟩
  · cases (hnone x).symm.trans hx
  · rcases hx with hx | ⟨p, hp, -⟩
    · exact hx
    · cases hp

section

variable {base : Nat} {seen ops : List Operation} {made made' : Allocations} {s s' : Run}
  {ps : List Pass}

/-- **Feeding a trace keeps the invariant.** -/
theorem Feeds.invariant (h : Feeds ps ops s s' made') (hs : Invariant base seen made s)
    (hops : Continues base seen ops) : Invariant base (seen ++ ops) (made ++ made') s' := by
  induction h generalizing seen made with
  | nil => rwa [List.append_nil, List.append_nil]
  | cons hop _ ih =>
    rw [List.append_cons, ← List.append_assoc]
    exact ih (hop.invariant (hs.congr rfl rfl rfl) hops.next) hops.rest

theorem Feeds.find?_constant (h : Feeds ps ops s s' made') (hs : Invariant base seen made s)
    (hops : Continues base seen ops) {y : Operand} {n : Int64}
    (hy : s.bindings.find? y = some (.constant n)) :
    s'.bindings.find? y = some (.constant n) := by
  induction h generalizing seen made with
  | nil => exact hy
  | @cons op ops s s₁ s' made₁ made₂ hop _ ih =>
    have hs' : Invariant base seen made (s.count fun t => { t with opsIn := t.opsIn + 1 }) :=
      hs.congr rfl rfl rfl
    exact ih (hop.invariant hs' hops.next) hops.rest (hop.find?_constant hs' hops.next hy)

/-- **An optimization of a well-formed trace** feeds it from a state in which nothing is known to
one in which the invariant holds. -/
theorem Trace.WellFormed.exists_feeds {t out : Trace} {tally : Tally} (ht : t.WellFormed)
    (h : (optimizeWith ps t).result = .ok (out, tally)) :
    ∃ first log s made, t.nextFreeId? = some first ∧
      Feeds ps t.ops { Run.start first with log } s made ∧ Invariant t.idBound t.ops made s ∧
      (∀ p ∈ made, first ≤ p.1) ∧ out = { t with ops := s.output.toList } := by
  obtain ⟨first, log, s, made, hfirst, hfeeds, hout⟩ := Feeds.of_optimizeWith h
  have hinv := hfeeds.invariant (invariant_start hfirst log)
    (ht.continues fun op hop => Trace.lt_idBound hop)
  refine ⟨first, log, s, made, hfirst, hfeeds, hinv, fun p hp => ?_, hout⟩
  rw [UInt32.le_iff_toNat_le, Trace.toNat_of_nextFreeId? hfirst]
  exact (hinv.ledger.fresh p hp).1

end

end TraceOpt
