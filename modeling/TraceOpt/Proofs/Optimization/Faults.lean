import TraceOpt.Proofs.Optimization.FreshIds
import TraceOpt.Proofs.Trace.WellFormed
import TraceOpt.Trace.Hash

/-!
# Which faults an optimization can end in

A trace may be malformed: ids may name several operations, and arguments may name none.  Even so, no
object gets into the output before its allocation.  The last stage that puts off allocations forces
every object among the arguments of an operation, and from there on nothing becomes an object again,
because ids that have not been given out are no objects.

* `Run.Tidy`, `Passage.tidy`: the ids of objects have been given out.
* `Forces.concrete`: the last forcing leaves no object among the arguments.
* `Halts.dueTo`: an operation that is held up lacks arguments or is a guard, if ids do not run out.
* `optimizeWith_faults`: the faults of an optimization.
-/

namespace TraceOpt

/-! ### Faults and what they are due to -/

/-- An operation with the arguments that stages look for. -/
structure Operation.Supplied (op : Operation) : Prop where
  /-- An integer operation has two. -/
  arithmetic : op.kind ∈ Kind.arithmetic → op.args.length = 2
  /-- A guard has something to check. -/
  guard : op.kind ∈ Kind.guards → 1 ≤ op.args.length
  /-- A write has a receiver and something to store. -/
  write : op.kind = .setField → 2 ≤ op.args.length

instance (op : Operation) : Decidable op.Supplied :=
  decidable_of_iff ((op.kind ∈ Kind.arithmetic → op.args.length = 2) ∧
      (op.kind ∈ Kind.guards → 1 ≤ op.args.length) ∧ (op.kind = .setField → 2 ≤ op.args.length))
    ⟨fun h => ⟨h.1, h.2.1, h.2.2⟩, fun h => ⟨h.arithmetic, h.guard, h.write⟩⟩

/-- The faults that an operation may end in, and what they are due to. -/
inductive Fault.DueTo (op : Operation) (ps : List Pass) : Fault → Prop
  /-- Ids have run out. -/
  | overflow : DueTo op ps .overflow
  /-- The operation lacks arguments, or has too many. -/
  | arity {expected : Nat} (h : ¬ op.Supplied) :
      DueTo op ps (.arity op.id op.kind expected op.args.length)
  /-- The operation is a guard, and there is a stage that looks into it. -/
  | contradiction {n : Int64} (hp : .guardPropagation ∈ ps) (hk : op.kind ∈ Kind.guards) :
      DueTo op ps (.guardContradiction op.id op.kind n)

theorem Fault.DueTo.cons {op : Operation} {ps : List Pass} {e : Fault} (h : e.DueTo op ps)
    (p : Pass) : e.DueTo op (p :: ps) := by
  cases h with
  | overflow => exact .overflow
  | arity h => exact .arity h
  | contradiction hp hk => exact .contradiction (List.mem_cons_of_mem p hp) hk

theorem Operation.arg_eq_error {op : Operation} {i : Nat} {e : Fault} (hi : i < 2)
    (h : op.arg i = .error e) :
    e = .arity op.id op.kind (i + 1) op.args.length ∧ op.args.length ≤ i := by
  unfold arg at h
  split at h
  · cases h
  · next hnone =>
    have hsize : i + 1 < UInt64.size := Nat.lt_of_lt_of_le (Nat.succ_lt_succ hi) (by decide)
    rw [if_pos hsize] at h
    cases h
    exact ⟨rfl, List.getElem?_eq_none_iff.1 hnone⟩

/-! ### Objects -/

namespace Run

variable [Hashable Operand]
variable {s s' : Run} {x y z : Operand} {v : Value} {o i : OpId} {op : Operation} {ps : List Pass}

/-- What is an object after a binding is the operand bound, or was that object before. -/
theorem origin?_resolve_bind (hs : s.bindings.Valid)
    (h : ((s.bind x v).resolve y).origin? = some i) :
    (y = x ∧ (s.settle x v).origin? = some i) ∨ (y ≠ x ∧ (s.resolve y).origin? = some i) := by
  by_cases hyx : y = x
  · have hbound := find?_of_origin? h
    rw [find?_bind hs, if_pos hyx.symm] at hbound
    rw [← Option.some.inj hbound] at h
    exact Or.inl ⟨hyx, h⟩
  · rw [resolve_bind_of_ne hs hyx] at h
    exact Or.inr ⟨hyx, h⟩

theorem origin?_settle_operand (h : (s.settle x (.operand y)).origin? = some i) :
    (s.resolve y).origin? = some i := by
  unfold settle at h
  dsimp only at h
  split_ifs at h
  · cases h
  · exact h

/-- An operand that becomes the same as one that is no object is none. -/
theorem origin?_bind_operand (hs : s.bindings.Valid) (hz : (s.resolve z).origin? = none)
    (h : ((s.bind x (.operand z)).resolve y).origin? = some i) :
    y ≠ x ∧ (s.resolve y).origin? = some i := by
  rcases origin?_resolve_bind hs h with ⟨-, hv⟩ | hy
  · rw [origin?_settle_operand hv] at hz
    cases hz
  · exact hy

/-- When an object becomes the same as an operand that is none, there is one object less. -/
theorem origin?_bindObject_operand (hs : s.bindings.Valid) (hz : (s.resolve z).origin? = none)
    (h : ((s.bindObject o x (.operand z)).resolve y).origin? = some i) :
    y ≠ x ∧ (s.resolve y).origin? = some i := by
  unfold bindObject at h
  split_ifs at h with hx
  · rw [hx]
    exact origin?_bind_operand hs hz h
  · have hz' : ((s.bind (.op o) (.operand z)).resolve z).origin? = none := by
      refine Option.eq_none_iff_forall_ne_some.2 fun j hj => ?_
      rw [(origin?_bind_operand hs hz hj).2] at hz
      cases hz
    obtain ⟨hyx, hy⟩ := origin?_bind_operand (valid_bind hs _ _) hz' h
    exact ⟨hyx, (origin?_bind_operand hs hz hy).2⟩

/-- A state in which the ids of objects, and of the operands that are objects, have been given
out. -/
structure Tidy (s : Run) : Prop where
  /-- The bindings are a map. -/
  valid : s.bindings.Valid
  /-- Ids that have not been given out are no objects. -/
  unused : ∀ i : OpId, s.nextId.toNat ≤ i.toNat → (s.resolve (.op i)).origin? = none
  /-- The `new` operations of objects have ids that have been given out. -/
  origin_lt : ∀ x o, (s.resolve x).origin? = some o → o.toNat < s.nextId.toNat

theorem resolve_of_bindings_eq (h : s'.bindings = s.bindings) : s'.resolve = s.resolve :=
  funext fun x => resolve_congr (by rw [h])

namespace Tidy

theorem congr (h : s.Tidy) (hbindings : s'.bindings = s.bindings)
    (hnext : s.nextId.toNat ≤ s'.nextId.toNat) : s'.Tidy := by
  refine ⟨by rw [hbindings]; exact h.valid, fun i hi => ?_, fun x o ho => ?_⟩
  · rw [resolve_of_bindings_eq hbindings]
    exact h.unused i (Nat.le_trans hnext hi)
  · rw [resolve_of_bindings_eq hbindings] at ho
    exact Nat.lt_of_lt_of_le (h.origin_lt x o ho) hnext

theorem lt_of_origin? (h : s.Tidy) (hx : (s.resolve x).origin? = some o) :
    ∀ i, x = .op i → i.toNat < s.nextId.toNat := by
  rintro i rfl
  refine Nat.lt_of_not_le fun hle => ?_
  rw [h.unused i hle] at hx
  cases hx

/-- An operand is bound.  If it becomes an object, its id has been given out. -/
theorem bind (h : s.Tidy) (hx : ∀ o, (s.settle x v).origin? = some o →
    o.toNat < s.nextId.toNat ∧ ∀ i, x = .op i → i.toNat < s.nextId.toNat) : (s.bind x v).Tidy := by
  refine ⟨valid_bind h.valid x v, fun i hi => ?_, fun y o ho => ?_⟩
  · refine Option.eq_none_iff_forall_ne_some.2 fun o ho => ?_
    rcases origin?_resolve_bind h.valid ho with ⟨hix, hv⟩ | ⟨-, hy⟩
    · exact Nat.not_lt_of_le hi ((hx o hv).2 i hix.symm)
    · rw [h.unused i hi] at hy
      cases hy
  · rcases origin?_resolve_bind h.valid ho with ⟨-, hv⟩ | ⟨-, hy⟩
    · exact (hx o hv).1
    · exact h.origin_lt y o hy

theorem bind_constant (h : s.Tidy) (x : Operand) (n : Int64) : (s.bind x (.constant n)).Tidy :=
  h.bind fun _ ho => nomatch ho

/-- An object and the operand that it was found by become a value. -/
theorem bindObject (h : s.Tidy) (ho : o.toNat < s.nextId.toNat)
    (hx : ∀ i, x = .op i → i.toNat < s.nextId.toNat)
    (hv : ∀ i, v.origin? = some i → i.toNat < s.nextId.toNat) : (s.bindObject o x v).Tidy := by
  -- what is bound is the value, or what the operand that it names resolves to
  have hsettle : ∀ {s : Run}, s.Tidy → (∀ i, v.origin? = some i → i.toNat < s.nextId.toNat) →
      ∀ {y : Operand} {i : OpId}, (s.settle y v).origin? = some i → i.toNat < s.nextId.toNat := by
    intro s hs hv y i hi
    cases v with
    | operand z => exact hs.origin_lt z i (origin?_settle_operand hi)
    | constant | blank | written => exact hv i hi
  have horigin : (s.bind (.op o) v).Tidy :=
    h.bind fun i hi => ⟨hsettle h hv hi, fun j hj => by rw [← Operand.op.inj hj]; exact ho⟩
  unfold Run.bindObject
  split_ifs
  · exact horigin
  · exact horigin.bind fun i hi => ⟨hsettle horigin hv hi, hx⟩

theorem postpone (h : s.Tidy) (hi : i.toNat < s.nextId.toNat) :
    (s.bind (.op i) (.blank i)).Tidy := by
  refine h.bind fun o ho => ?_
  obtain rfl := Option.some.inj ho
  exact ⟨hi, fun j hj => by rw [← Operand.op.inj hj]; exact hi⟩

theorem force (h : s.Tidy) (hx : (s.resolve x).origin? = some o) (hid : s.nextId ≠ OpId.last)
    (ps : List Pass) : (s.force ps x o).Tidy := by
  have hsucc := OpId.toNat_succ hid
  have hnext : s.nextId.toNat ≤ (s.nextId + 1).toNat := by omega
  have hs : Tidy { s with nextId := s.nextId + 1 } := h.congr rfl hnext
  -- the allocation goes to the output, or is put off under the id that has just been given out
  have hallocate : (allocate s.allocation ps { s with nextId := s.nextId + 1 }).Tidy := by
    have hnextId := Nat.le_of_eq (congrArg UInt32.toNat
      (nextId_allocate s.allocation ps { s with nextId := s.nextId + 1 }).symm)
    rcases allocate_cases s.allocation ps { s with nextId := s.nextId + 1 } with ⟨hb, -⟩ | ⟨hb, -⟩
    · have hlt : s.nextId.toNat < (s.nextId + 1).toNat := by omega
      exact (hs.postpone hlt).congr hb hnextId
    · exact hs.congr hb hnextId
  have hdropped := hallocate.congr (bindings_dropWrite _ (s.resolve x) s.nextId)
    (Nat.le_of_eq (congrArg UInt32.toNat (nextId_dropWrite ..).symm))
  have hlt : ∀ i : OpId, i.toNat < s.nextId.toNat → i.toNat <
      ((allocate s.allocation ps { s with nextId := s.nextId + 1 }).dropWrite (s.resolve x)
        s.nextId).nextId.toNat := by
    intro i hi
    rw [nextId_dropWrite, nextId_allocate]
    exact Nat.lt_of_lt_of_le hi hnext
  refine (hdropped.bindObject (hlt o (h.origin_lt x o hx)) (fun i hi => ?_)
    fun i hi => ?_).congr rfl (Nat.le_refl _)
  · exact hlt i (h.lt_of_origin? hx i hi)
  · cases hi

end Tidy

/-- Forcing with no stage left that puts off allocations leaves one object less. -/
theorem origin?_force (hs : s.Tidy) (hp : .allocationSinking ∉ ps)
    (h : ((s.force ps x o).resolve y).origin? = some i) :
    y ≠ x ∧ (s.resolve y).origin? = some i := by
  have hbindings : ((allocate s.allocation ps { s with nextId := s.nextId + 1 }).dropWrite
      (s.resolve x) s.nextId).bindings = s.bindings := by
    rw [bindings_dropWrite, (allocate_of_notMem hp _ _).1]
  have hresolve := resolve_of_bindings_eq hbindings
  rw [← hresolve]
  refine origin?_bindObject_operand (by rw [hbindings]; exact hs.valid) ?_ h
  rw [hresolve]
  exact hs.unused s.nextId (Nat.le_refl _)

end Run

/-! ### Passages -/

section

variable [Hashable Operand]
variable {ps : List Pass} {op : Operation} {ops : List Operation} {xs : List Operand}
  {made : Allocations} {s s' : Run} {e : Fault} {x : Operand}

theorem Forces.tidy (h : Forces ps xs s s' made) (hs : s.Tidy) : s'.Tidy := by
  induction h with
  | nil => exact hs
  | skip _ _ ih => exact ih hs
  | force hx hid _ ih => exact ih (hs.force hx hid _)

/-- Passages keep states tidy. -/
theorem Passage.tidy (h : Passage op ps s s' made) (hs : s.Tidy)
    (hop : op.id.toNat < s.nextId.toNat) : s'.Tidy := by
  induction h with
  | emit | elide => exact hs.congr rfl (Nat.le_refl _)
  | @fold ps n s =>
    have hnoted : ((s.enter .constantFolding op).note (.folded op n)).Tidy :=
      hs.congr rfl (Nat.le_refl _)
    exact (hnoted.bind_constant op.result n).congr rfl (Nat.le_refl _)
  | unfolded _ _ ih | unguarded _ _ ih => exact ih (hs.congr rfl (Nat.le_refl _)) hop
  | learn _ _ _ _ ih =>
    exact ((ih (hs.congr rfl (Nat.le_refl _)) hop).bind_constant _ _).congr rfl (Nat.le_refl _)
  | @postpone ps s =>
    have hentered : (s.enter .allocationSinking op).Tidy := hs.congr rfl (Nat.le_refl _)
    exact (hentered.postpone hop).congr rfl (Nat.le_refl _)
  | @absorb ps x y origin s _ _ hx =>
    have hnoted : ((s.enter .allocationSinking op).note
        (.absorbed op (.written origin (s.resolve y)))).Tidy := hs.congr rfl (Nat.le_refl _)
    have horigin := hs.origin_lt x origin hx
    refine (hnoted.bindObject (v := .written origin (s.resolve y)) horigin (hs.lt_of_origin? hx)
      fun i hi => ?_).congr rfl (Nat.le_refl _)
    obtain rfl := Option.some.inj hi
    exact horigin
  | @force ps s s₁ s' made made' _ _ hargs _ ih =>
    have hentered : (s.enter .allocationSinking op).Tidy := hs.congr rfl (Nat.le_refl _)
    exact ih (hargs.tidy hentered) (Nat.lt_of_lt_of_le hop hargs.numbered.le_next)

theorem Feeds.tidy (h : Feeds ps ops s s' made) (hs : s.Tidy)
    (hops : ∀ op ∈ ops, op.id.toNat < s.nextId.toNat) : s'.Tidy := by
  induction h with
  | nil => exact hs
  | @cons op ops s s₁ s' made₁ made₂ hop _ ih =>
    obtain ⟨hlt, hops⟩ := List.forall_mem_cons.1 hops
    have hnext : s.nextId.toNat ≤ s₁.nextId.toNat := hop.numbered.le_next
    refine ih (hop.tidy (hs.congr rfl (Nat.le_refl _)) hlt) fun d hd => ?_
    exact Nat.lt_of_lt_of_le (hops d hd) hnext

theorem Trace.tidy_startOf (t : Trace) (ps : List Pass) (first : OpId) :
    (t.startOf ps first).Tidy := by
  have hnone : ∀ x, ((t.startOf ps first).resolve x).origin? = none := by
    intro x
    cases x <;> rfl
  refine ⟨HashTrie.valid_empty, fun i _ => hnone _, fun x o ho => ?_⟩
  rw [hnone] at ho
  cases ho

/-- Forcing with no stage left that puts off allocations makes nothing an object. -/
theorem Forces.origin?_of_none (h : Forces ps xs s s' made) (hs : s.Tidy)
    (hp : .allocationSinking ∉ ps) (hx : (s.resolve x).origin? = none) :
    (s'.resolve x).origin? = none := by
  induction h with
  | nil => exact hx
  | skip _ _ ih => exact ih hs hx
  | force hy hid _ ih =>
    refine ih (hs.force hy hid _) (Option.eq_none_iff_forall_ne_some.2 fun i hi => ?_)
    rw [(Run.origin?_force hs hp hi).2] at hx
    cases hx

/-- **The last forcing leaves no object among the arguments.** -/
theorem Forces.concrete (h : Forces ps xs s s' made) (hs : s.Tidy)
    (hp : .allocationSinking ∉ ps) : ∀ x ∈ xs, (s'.resolve x).origin? = none := by
  induction h with
  | nil => exact fun _ hx => nomatch hx
  | skip hx h ih => exact List.forall_mem_cons.2 ⟨h.origin?_of_none hs hp hx, ih hs⟩
  | @force x xs origin s s' made hx hid h ih =>
    have hforced : ((s.force ps x origin).resolve x).origin? = none :=
      Option.eq_none_iff_forall_ne_some.2 fun i hi => (Run.origin?_force hs hp hi).1 rfl
    have hs' := hs.force hx hid ps
    exact List.forall_mem_cons.2 ⟨h.origin?_of_none hs' hp hforced, ih hs'⟩

/-- Without a stage that puts off allocations there are no objects. -/
theorem Passage.origin?_eq_none (h : Passage op ps s s' made) (hs : s.bindings.Valid)
    (hp : .allocationSinking ∉ ps) (hnone : ∀ x, (s.resolve x).origin? = none) :
    ∀ x, (s'.resolve x).origin? = none := by
  have hbind : ∀ {s : Run} {y : Operand} {n : Int64}, s.bindings.Valid →
      (∀ x, (s.resolve x).origin? = none) →
      ∀ x, ((s.bind y (.constant n)).resolve x).origin? = none := by
    intro s y n hs hnone x
    refine Option.eq_none_iff_forall_ne_some.2 fun i hi => ?_
    rcases Run.origin?_resolve_bind hs hi with ⟨-, hv⟩ | ⟨-, hx⟩
    · cases hv
    · rw [hnone x] at hx
      cases hx
  induction h with
  | emit | elide => exact hnone
  | @fold ps n s => exact hbind (s := (s.enter .constantFolding op).note (.folded op n)) hs hnone
  | unfolded _ _ ih | unguarded _ _ ih =>
    exact ih hs (fun h => hp (List.mem_cons_of_mem _ h)) hnone
  | learn _ _ _ h ih =>
    exact hbind (h.valid hs) (ih hs (fun h => hp (List.mem_cons_of_mem _ h)) hnone)
  | postpone | absorb | force => exact absurd List.mem_cons_self hp

theorem Feeds.origin?_eq_none (h : Feeds ps ops s s' made) (hs : s.bindings.Valid)
    (hp : .allocationSinking ∉ ps) (hnone : ∀ x, (s.resolve x).origin? = none) :
    ∀ x, (s'.resolve x).origin? = none := by
  induction h with
  | nil => exact hnone
  | cons hop _ ih => exact ih (hop.valid hs) (hop.origin?_eq_none hs hp hnone)

/-! ### Faults -/

theorem Run.exists_place (hx : (s.resolve x).origin? = none) : ∃ y, s.place x = .ok y := by
  unfold Run.place
  cases hv : s.resolve x with
  | constant | operand => exact ⟨_, rfl⟩
  | blank | written =>
    rw [hv] at hx
    cases hx

/-- Arguments among which there is no object can go to the output. -/
theorem Run.exists_placed (hxs : ∀ x ∈ xs, (s.resolve x).origin? = none) :
    ∃ ys, xs.mapM s.place = .ok ys := by
  induction xs with
  | nil => exact ⟨[], rfl⟩
  | cons x xs ih =>
    obtain ⟨hx, hxs⟩ := List.forall_mem_cons.1 hxs
    obtain ⟨y, hy⟩ := Run.exists_place hx
    obtain ⟨ys, hys⟩ := ih hxs
    refine ⟨y :: ys, ?_⟩
    rw [List.mapM_cons, hy, hys]
    rfl

/-- **An operation that is held up** lacks arguments or is a guard, unless ids run out. -/
theorem Halts.dueTo (h : Halts op ps s s' made e) (hs : s.Tidy)
    (hargs : .allocationSinking ∈ ps ∨ ∀ x ∈ op.args, (s.resolve x).origin? = none) :
    e.DueTo op ps := by
  have htail : ∀ {p : Pass} {ps : List Pass}, p ≠ .allocationSinking →
      .allocationSinking ∈ p :: ps → .allocationSinking ∈ ps := fun hp h =>
    (List.mem_cons.1 h).resolve_left hp.symm
  induction h with
  | emit herror =>
    obtain ⟨ys, hys⟩ := Run.exists_placed (hargs.resolve_left fun h => nomatch h)
    rw [hys] at herror
    cases herror
  | miscounted hk hlength => exact .arity fun h => hlength (h.arithmetic hk)
  | unfolded _ _ ih =>
    exact (ih (hs.congr rfl (Nat.le_refl _)) (hargs.imp_left (htail (by decide)))).cons _
  | unchecked hk harg =>
    obtain ⟨rfl, hlength⟩ := Operation.arg_eq_error (by decide) harg
    exact .arity fun h => absurd (h.guard hk) (by omega)
  | contradiction hk => exact .contradiction List.mem_cons_self hk
  | learn _ _ _ _ ih | unguarded _ _ ih =>
    exact (ih (hs.congr rfl (Nat.le_refl _)) (hargs.imp_left (htail (by decide)))).cons _
  | unreceived hk harg =>
    obtain ⟨rfl, hlength⟩ := Operation.arg_eq_error (by decide) harg
    exact .arity fun h => absurd (h.write hk) (by omega)
  | unstored hk _ _ harg =>
    obtain ⟨rfl, hlength⟩ := Operation.arg_eq_error (by decide) harg
    exact .arity fun h => absurd (h.write hk) (by omega)
  | exhausted => exact .overflow
  | @force ps s s₁ s' made made' e _ hforces _ ih =>
    have hs' : (s.enter .allocationSinking op).Tidy := hs.congr rfl (Nat.le_refl _)
    refine (ih (hforces.tidy hs') ?_).cons _
    -- either a later stage forces the arguments again, or this one was the last
    by_cases hp : .allocationSinking ∈ ps
    · exact Or.inl hp
    · exact Or.inr (hforces.concrete hs' hp)

theorem HaltsAmong.dueTo (h : HaltsAmong ps ops s s' made e) (hs : s.Tidy)
    (hops : ∀ op ∈ ops, op.id.toNat < s.nextId.toNat)
    (hnone : ∀ x, (s.resolve x).origin? = none) : ∃ op ∈ ops, e.DueTo op ps := by
  obtain ⟨before, op, after, s₁, made₁, made₂, rfl, -, hfeeds, hhalts⟩ := h
  obtain ⟨hbefore, -⟩ := List.forall_mem_append.1 hops
  have hs₁ : s₁.next.Tidy := (hfeeds.tidy hs hbefore).congr rfl (Nat.le_refl _)
  refine ⟨op, List.mem_append_right _ List.mem_cons_self, hhalts.dueTo hs₁ ?_⟩
  by_cases hp : .allocationSinking ∈ ps
  · exact Or.inl hp
  · exact Or.inr fun x _ => hfeeds.origin?_eq_none hs.valid hp hnone x

/-- The fault of an optimization is due to an operation of the trace, or ids have run out. -/
theorem exists_dueTo {t : Trace} (h : (optimizeWith ps t).result = .error e) :
    e = .overflow ∨ ∃ op ∈ t.ops, e.DueTo op ps := by
  rcases optimizeWith_eq_error h with ⟨-, he⟩ | ⟨first, s, made, hfirst, hhalts⟩
  · exact Or.inl he
  · refine Or.inr (hhalts.dueTo (t.tidy_startOf ps first) (fun op hop => ?_) fun x => ?_)
    · exact UInt32.lt_iff_toNat_lt.1 (Trace.lt_of_nextFreeId? hop hfirst)
    · cases x <;> rfl

end

/-- **Which faults an optimization can end in**: whatever the trace, if ids do not run out the
optimization succeeds, or an operation lacks arguments, or a guard contradicts what is known.  If
all operations have their arguments, only guards are left, and without the stage that looks into
guards it succeeds. -/
theorem optimizeWith_faults [Hashable Operand] (passes : List Pass) (t : Trace)
    (hid : (optimizeWith passes t).result ≠ .error .overflow) :
    ((∃ r, (optimizeWith passes t).result = .ok r) ∨
        (∃ op ∈ t.ops, ¬ op.Supplied ∧ ∃ expected,
          (optimizeWith passes t).result =
            .error (.arity op.id op.kind expected op.args.length)) ∨
        ∃ op ∈ t.ops, op.kind ∈ Kind.guards ∧ .guardPropagation ∈ passes ∧ ∃ n,
          (optimizeWith passes t).result = .error (.guardContradiction op.id op.kind n)) ∧
      ((∀ op ∈ t.ops, op.Supplied) →
        (∀ id kind expected got,
          (optimizeWith passes t).result ≠ .error (.arity id kind expected got)) ∧
        (.guardPropagation ∉ passes → ∃ r, (optimizeWith passes t).result = .ok r)) := by
  cases hresult : (optimizeWith passes t).result with
  | ok r => exact ⟨Or.inl ⟨r, rfl⟩, fun _ => ⟨fun _ _ _ _ h => (nomatch h), fun _ => ⟨r, rfl⟩⟩⟩
  | error e =>
    rw [hresult] at hid
    have hne : e ≠ .overflow := fun he => hid (by rw [he])
    obtain ⟨op, hop, hdue⟩ := (exists_dueTo hresult).resolve_left hne
    cases hdue with
    | overflow => exact absurd rfl hne
    | arity h =>
      exact ⟨Or.inr (Or.inl ⟨op, hop, h, _, rfl⟩), fun hall => absurd (hall op hop) h⟩
    | contradiction hp hk =>
      exact ⟨Or.inr (Or.inr ⟨op, hop, hk, hp, _, rfl⟩),
        fun _ => ⟨fun _ _ _ _ h => (nomatch h), fun hp' => absurd hp hp'⟩⟩

/-! ### A malformed trace -/

/-- Two objects under one id, a read of an operation that comes later, and arguments that name no
operation. -/
def tangled : Trace :=
  ⟨1, [⟨0, .new, [], some .ref⟩,
    ⟨0, .new, [.op 4], none⟩,
    ⟨1, .setField, [.op 0, .op 9], none⟩,
    ⟨2, .getField, [.op 3, .op 0], some .ref⟩,
    ⟨3, .new, [], some .ref⟩,
    ⟨2, .call, [.op 0, .op 3, .op 5, .op 3], none⟩,
    ⟨4, .guardTrue, [.op 5, .op 3], none⟩]⟩

theorem tangled_succeeds :
    (optimizeWith [.allocationSinking, .constantFolding, .allocationSinking] tangled).result ≠
        .error .overflow ∧
      (∀ op ∈ tangled.ops, op.Supplied) ∧
      ∃ r, (optimizeWith [.allocationSinking, .constantFolding, .allocationSinking]
        tangled).result = .ok r := by
  have hid : (optimizeWith [.allocationSinking, .constantFolding, .allocationSinking]
      tangled).result ≠ .error .overflow := by
    decide +kernel
  have hsupplied : ∀ op ∈ tangled.ops, op.Supplied := by decide
  exact ⟨hid, hsupplied, ((optimizeWith_faults _ _ hid).2 hsupplied).2 (by decide)⟩

end TraceOpt
