import Mathlib.Data.List.Forall2
import TraceOpt.Proofs.HashTrie.Lookup
import TraceOpt.Proofs.Optimization.Passage

/-!
# What effects do to the state

Bindings are a trie, so that binding an operand is seen by looking up that operand and by nothing
else.  The lemmas below carry this over to the effects of stages: what they bind, what they put into
the output, and which operands they leave alone.

* `Run.find?_bind`, `Run.resolve_cases`: looking up after binding, and what an operand resolves to.
* `Run.allocate_cases`: what becomes of a fresh allocation.
* `Run.find?_bindObject`, `Run.find?_force`: looking up after an object has become a value.
* `Passage.valid`: passages keep bindings valid.
-/

namespace TraceOpt

namespace Run

variable {s : Run} {x : Operand} {v : Value}

/-! ### Bindings -/

variable [Hashable Operand]

theorem find?_bind (hs : s.bindings.Valid) (x : Operand) (v : Value) (y : Operand) :
    (s.bind x v).bindings.find? y = if x = y then some (s.settle x v) else s.bindings.find? y := by
  have hsame : HashTrie.SameKey x y ↔ x = y := by
    constructor
    · exact fun h => eq_of_beq h.2
    · rintro rfl
      exact ⟨rfl, beq_self_eq_true x⟩
  rw [Run.bind, HashTrie.find?_insert hs]
  exact if_congr hsame rfl rfl

theorem find?_bind_of_ne (hs : s.bindings.Valid) {y : Operand} (hy : y ≠ x) :
    (s.bind x v).bindings.find? y = s.bindings.find? y := by
  rw [find?_bind hs, if_neg hy.symm]

theorem valid_bind (hs : s.bindings.Valid) (x : Operand) (v : Value) :
    (s.bind x v).bindings.Valid :=
  hs.insert x (s.settle x v)

/-- An operand is a literal, or is bound, or stands for itself. -/
theorem resolve_cases (s : Run) (x : Operand) :
    (∃ n, x = .const n ∧ s.resolve x = .constant n) ∨ s.bindings.find? x = some (s.resolve x) ∨
      (s.bindings.find? x = none ∧ s.resolve x = .operand x) := by
  cases x with
  | const n => exact Or.inl ⟨n, rfl, rfl⟩
  | input | op =>
    right
    rw [resolve, HashTrie.findD]
    · cases s.bindings.find? _ with
      | none => exact Or.inr ⟨rfl, rfl⟩
      | some v => exact Or.inl rfl
    · exact fun n h => nomatch h

/-- Whatever is an object is bound to it. -/
theorem find?_of_origin? {origin : OpId} (h : (s.resolve x).origin? = some origin) :
    s.bindings.find? x = some (s.resolve x) := by
  rcases s.resolve_cases x with ⟨n, -, hx⟩ | hx | ⟨-, hx⟩
  · rw [hx] at h
    cases h
  · exact hx
  · rw [hx] at h
    cases h

theorem resolve_of_find? {id : OpId} (h : s.bindings.find? (.op id) = some v) :
    s.resolve (.op id) = v := by
  change (s.bindings.find? _).getD _ = _
  rw [h]
  rfl

/-- Whatever is bound to an integer resolves to one. -/
theorem isConstant_of_find? {n : Int64} (h : s.bindings.find? x = some (.constant n)) :
    (s.resolve x).isConstant = true := by
  rcases s.resolve_cases x with ⟨m, -, hm⟩ | hbound | ⟨hnone, -⟩
  · rw [hm]
    rfl
  · rw [← Option.some.inj (h.symm.trans hbound)]
    rfl
  · rw [h] at hnone
    cases hnone

/-! ### Objects -/

theorem bindObject_self (s : Run) (o : OpId) (v : Value) :
    s.bindObject o (.op o) v = s.bind (.op o) v := if_pos rfl

@[simp] theorem output_bindObject (s : Run) (origin : OpId) (x : Operand) (v : Value) :
    (s.bindObject origin x v).output = s.output := by
  unfold bindObject
  split_ifs <;> rfl

@[simp] theorem nextId_bindObject (s : Run) (origin : OpId) (x : Operand) (v : Value) :
    (s.bindObject origin x v).nextId = s.nextId := by
  unfold bindObject
  split_ifs <;> rfl

theorem valid_bindObject (hs : s.bindings.Valid) (origin : OpId) (x : Operand) (v : Value) :
    (s.bindObject origin x v).bindings.Valid := by
  unfold bindObject
  split_ifs
  · exact valid_bind hs _ _
  · exact valid_bind (valid_bind hs _ _) _ _

theorem find?_bindObject_of_ne (hs : s.bindings.Valid) {o : OpId} {y : Operand}
    (hy : y ≠ x) (hyo : y ≠ .op o) :
    (s.bindObject o x v).bindings.find? y = s.bindings.find? y := by
  unfold bindObject
  split_ifs
  · exact find?_bind_of_ne hs hyo
  · rw [find?_bind_of_ne (valid_bind hs _ _) hy, find?_bind_of_ne hs hyo]

theorem resolve_congr {s' : Run} (h : s'.bindings.find? x = s.bindings.find? x) :
    s'.resolve x = s.resolve x := by
  cases x with
  | const => rfl
  | input | op =>
    change (s'.bindings.find? _).getD _ = (s.bindings.find? _).getD _
    rw [h]

theorem settle_of_resolve (hv : ∀ z, v = .operand z → s.resolve z = v) : s.settle x v = v := by
  unfold settle
  split
  · split_ifs
    · rfl
    · exact hv _ rfl
  · rfl

theorem resolve_bind_of_ne (hs : s.bindings.Valid) {z : Operand} (hz : z ≠ x) :
    (s.bind x v).resolve z = s.resolve z := resolve_congr (find?_bind_of_ne hs hz)

/-- Binding to a value that names no operand. -/
theorem find?_bind_value (hs : s.bindings.Valid) (hv : ∀ y, v ≠ .operand y) (y : Operand) :
    (s.bind x v).bindings.find? y = if y = x then some v else s.bindings.find? y := by
  rw [find?_bind hs, settle_of_resolve fun z hz => absurd hz (hv z)]
  exact if_congr eq_comm rfl rfl

/-- An object found by an operand becomes a value, provided that this is no operand that is bound
or is the object itself. -/
theorem find?_bindObject (hs : s.bindings.Valid) {o : OpId}
    (hv : ∀ z, v = .operand z → s.resolve z = v ∧ z ≠ .op o) (y : Operand) :
    (s.bindObject o x v).bindings.find? y =
      if y = x ∨ y = .op o then some v else s.bindings.find? y := by
  have hfirst : s.settle (.op o) v = v := settle_of_resolve fun z hz => (hv z hz).1
  unfold bindObject
  by_cases hx : x = .op o
  · rw [if_pos hx, find?_bind hs, hfirst]
    refine if_congr ?_ rfl rfl
    rw [hx, or_self, eq_comm]
  · have hsecond : (s.bind (.op o) v).settle x v = v := settle_of_resolve fun z hz => by
      rw [resolve_bind_of_ne hs (hv z hz).2, (hv z hz).1]
    rw [if_neg hx, find?_bind (valid_bind hs _ _), hsecond, find?_bind hs, hfirst]
    by_cases hyx : x = y
    · rw [if_pos hyx, if_pos (Or.inl hyx.symm)]
    · rw [if_neg hyx]
      refine if_congr ?_ rfl rfl
      rw [or_iff_right (Ne.symm hyx), eq_comm]

omit [Hashable Operand] in
@[simp] theorem bindings_dropWrite (s : Run) (object : Value) (id : OpId) :
    (s.dropWrite object id).bindings = s.bindings := by
  unfold dropWrite
  split <;> rfl

omit [Hashable Operand] in
@[simp] theorem output_dropWrite (s : Run) (object : Value) (id : OpId) :
    (s.dropWrite object id).output = s.output := by
  unfold dropWrite
  split <;> rfl

omit [Hashable Operand] in
@[simp] theorem nextId_dropWrite (s : Run) (object : Value) (id : OpId) :
    (s.dropWrite object id).nextId = s.nextId := by
  unfold dropWrite
  split <;> rfl

@[simp] theorem nextId_allocate (op : Operation) (ps : List Pass) (s : Run) :
    (allocate op ps s).nextId = s.nextId := by
  induction ps generalizing s with
  | nil => rfl
  | cons p ps ih =>
    cases p with
    | constantFolding | guardPropagation => exact ih _
    | allocationSinking => rfl

/-- An allocation is put off or goes to the output. -/
theorem allocate_cases (op : Operation) (ps : List Pass) (s : Run) :
    ((allocate op ps s).bindings = (s.bind op.result (.blank op.id)).bindings ∧
        (allocate op ps s).output = s.output) ∨
      ((allocate op ps s).bindings = s.bindings ∧
        (allocate op ps s).output = s.output.push { op with args := [] }) := by
  induction ps generalizing s with
  | nil => exact Or.inr ⟨rfl, rfl⟩
  | cons p ps ih =>
    cases p with
    | constantFolding | guardPropagation => exact ih (s.enter _ op)
    | allocationSinking => exact Or.inl ⟨rfl, rfl⟩

/-- With no stage left that puts off allocations, an allocation goes to the output. -/
theorem allocate_of_notMem {ps : List Pass} (hp : .allocationSinking ∉ ps) (op : Operation)
    (s : Run) :
    (allocate op ps s).bindings = s.bindings ∧
      (allocate op ps s).output = s.output.push { op with args := [] } := by
  induction ps generalizing s with
  | nil => exact ⟨rfl, rfl⟩
  | cons p ps ih =>
    have hrest := fun h => hp (List.mem_cons_of_mem p h)
    cases p with
    | constantFolding | guardPropagation => exact ih hrest (s.enter _ op)
    | allocationSinking => exact absurd List.mem_cons_self hp

theorem valid_allocate (hs : s.bindings.Valid) (op : Operation) (ps : List Pass) :
    (allocate op ps s).bindings.Valid := by
  rcases allocate_cases op ps s with ⟨hb, -⟩ | ⟨hb, -⟩
  · rw [hb]
    exact valid_bind hs _ _
  · rwa [hb]

theorem output_force (s : Run) (ps : List Pass) (x : Operand) (origin : OpId) :
    (s.force ps x origin).output = s.output ∨
      (s.force ps x origin).output = s.output.push s.allocation := by
  have hforce : (s.force ps x origin).output =
      (allocate s.allocation ps { s with nextId := s.nextId + 1 }).output := by
    refine (output_bindObject ..).trans ?_
    rw [output_dropWrite]
  rw [hforce]
  rcases allocate_cases s.allocation ps { s with nextId := s.nextId + 1 } with ⟨-, ho⟩ | ⟨-, ho⟩
  · exact Or.inl ho
  · exact Or.inr ho

theorem valid_force (hs : s.bindings.Valid) (ps : List Pass) (x : Operand) (origin : OpId) :
    (s.force ps x origin).bindings.Valid := by
  refine valid_bindObject ?_ _ _ _
  rw [bindings_dropWrite]
  refine valid_allocate ?_ _ _
  exact hs

theorem find?_force_of_ne (hs : s.bindings.Valid) {ps : List Pass} {o : OpId} {y : Operand}
    (hy : y ≠ x) (hyo : y ≠ .op o) (hynew : y ≠ .op s.nextId) :
    (s.force ps x o).bindings.find? y = s.bindings.find? y := by
  have hvalid : (allocate s.allocation ps { s with nextId := s.nextId + 1 }).bindings.Valid := by
    refine valid_allocate ?_ _ _
    exact hs
  refine (find?_bindObject_of_ne ?_ hy hyo).trans ?_
  · rwa [bindings_dropWrite]
  · rw [bindings_dropWrite]
    rcases allocate_cases s.allocation ps { s with nextId := s.nextId + 1 } with ⟨hb, -⟩ | ⟨hb, -⟩
    · rw [hb]
      refine find?_bind_of_ne ?_ hynew
      exact hs
    · rw [hb]

theorem nextId_force (s : Run) (ps : List Pass) (x : Operand) (o : OpId) :
    (s.force ps x o).nextId = s.nextId + 1 := by
  refine (nextId_bindObject ..).trans ?_
  rw [nextId_dropWrite, nextId_allocate]

/-- With no stage left that puts off allocations, a forced object becomes an allocation in the
output. -/
theorem find?_force {ps : List Pass} (hp : .allocationSinking ∉ ps) (hs : s.bindings.Valid)
    {o : OpId} (hnext : s.bindings.find? (.op s.nextId) = none) (ho : o ≠ s.nextId) (y : Operand) :
    (s.force ps x o).bindings.find? y =
      if y = x ∨ y = .op o then some (.operand (.op s.nextId)) else s.bindings.find? y := by
  have hresolve : s.resolve (.op s.nextId) = .operand (.op s.nextId) := by
    rcases s.resolve_cases (.op s.nextId) with ⟨n, hn, -⟩ | hbound | ⟨-, hself⟩
    · cases hn
    · rw [hnext] at hbound
      cases hbound
    · exact hself
  have hbindings : ((allocate s.allocation ps { s with nextId := s.nextId + 1 }).dropWrite
      (s.resolve x) s.nextId).bindings = s.bindings := by
    rw [bindings_dropWrite, (allocate_of_notMem hp _ _).1]
  refine (find?_bindObject ?_ ?_ y).trans ?_
  · rwa [hbindings]
  · rintro z ⟨⟩
    refine ⟨(resolve_congr ?_).trans hresolve, fun h => ho (Operand.op.inj h).symm⟩
    rw [hbindings]
  · rw [hbindings]
    rfl

theorem output_force_of_notMem {ps : List Pass} (hp : .allocationSinking ∉ ps) (s : Run)
    (x : Operand) (o : OpId) : (s.force ps x o).output = s.output.push s.allocation := by
  refine (output_bindObject ..).trans ?_
  rw [output_dropWrite, (allocate_of_notMem hp _ _).2]
  rfl

/-! ### Arguments in the output -/

theorem placed_of_mapM {xs ys : List Operand} (h : xs.mapM s.place = .ok ys) :
    List.Forall₂ (fun x y => s.place x = .ok y) xs ys := by
  induction xs generalizing ys with
  | nil =>
    cases h
    exact .nil
  | cons x xs ih =>
    rw [List.mapM_cons] at h
    cases hx : s.place x with
    | error e =>
      rw [hx] at h
      cases h
    | ok y =>
      rw [hx] at h
      cases hxs : xs.mapM s.place with
      | error e =>
        rw [hxs] at h
        cases h
      | ok zs =>
        rw [hxs] at h
        cases h
        exact .cons hx (ih hxs)

theorem exists_of_mem_placed {xs ys : List Operand}
    (h : List.Forall₂ (fun x y => s.place x = .ok y) xs ys) {y : Operand} (hy : y ∈ ys) :
    ∃ x ∈ xs, s.place x = .ok y := by
  induction h with
  | nil => cases hy
  | cons hx _ ih =>
    rcases List.mem_cons.1 hy with rfl | hy
    · exact ⟨_, List.mem_cons_self, hx⟩
    · obtain ⟨z, hz, hplace⟩ := ih hy
      exact ⟨z, List.mem_cons_of_mem _ hz, hplace⟩

end Run

/-! ### Passages -/

/-- A stage that stands in a list once at most does not come again. -/
theorem notMem_of_count_cons_le {p : Pass} {ps : List Pass} (h : (p :: ps).count p ≤ 1) :
    p ∉ ps ∧ ps.count p ≤ 1 := by
  rw [List.count_cons_self] at h
  have hzero := Nat.le_zero.1 (Nat.le_of_succ_le_succ h)
  exact ⟨List.count_eq_zero.1 hzero, Nat.le_of_succ_le h⟩

variable [Hashable Operand]

theorem Forces.valid {ps : List Pass} {xs : List Operand} {s s' : Run} {made : Allocations}
    (h : Forces ps xs s s' made) (hs : s.bindings.Valid) : s'.bindings.Valid := by
  induction h with
  | nil => exact hs
  | skip _ _ ih => exact ih hs
  | force _ _ _ ih => exact ih (Run.valid_force hs _ _ _)

theorem Passage.valid {op : Operation} {ps : List Pass} {s s' : Run} {made : Allocations}
    (h : Passage op ps s s' made) (hs : s.bindings.Valid) : s'.bindings.Valid := by
  induction h with
  | emit | elide => exact hs
  | fold | postpone =>
    refine Run.valid_bind ?_ _ _
    exact hs
  | absorb =>
    refine Run.valid_bindObject ?_ _ _ _
    exact hs
  | unfolded _ _ ih | unguarded _ _ ih => exact ih hs
  | learn _ _ _ _ ih => exact Run.valid_bind (ih hs) _ _
  | force _ _ hargs _ ih => exact ih (hargs.valid hs)

end TraceOpt
