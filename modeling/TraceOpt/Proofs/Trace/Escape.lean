import Mathlib.Data.List.Induction
import TraceOpt.Proofs.Trace.WellFormed

/-!
# Objects that escape

One scan over a trace tells which objects have to exist.  It keeps a list of objects with which
nothing has been done but writing to their fields: a `new` operation adds its object, and a write
to the field of an object on the list changes nothing.  At any other operation all objects of the
list among the arguments escape, whatever it is that the operation does with them.

* `leaving`, `remaining`: what one operation does to the list.
* `unescaped`, `escapees`: the objects on the list after some operations, and those that left it.
* `mem_scan_iff`, `nodup_scan`: every object is on the list or has left it, and just one of these.
-/

namespace TraceOpt

/-- The object of a list that an operand names. -/
def Operand.objectIn? (live : List OpId) : Operand → Option OpId
  | .op id => if id ∈ live then some id else none
  | _ => none

theorem Operand.objectIn?_eq_some_iff {live : List OpId} {x : Operand} {o : OpId} :
    x.objectIn? live = some o ↔ x = .op o ∧ o ∈ live := by
  cases x with
  | input | const => simp [objectIn?]
  | op id =>
    rw [objectIn?]
    split_ifs with h
    · simp only [Option.some.injEq, Operand.op.injEq]
      exact ⟨fun ho => ⟨ho, ho ▸ h⟩, And.left⟩
    · simp only [false_iff, Operand.op.injEq, not_and]
      exact fun ho ho' => h (ho ▸ ho')

theorem filterMap_objectIn?_filter (live : List OpId) (p : OpId → Bool) (xs : List Operand) :
    xs.filterMap (Operand.objectIn? (live.filter p)) =
      (xs.filterMap (Operand.objectIn? live)).filter p := by
  induction xs with
  | nil => rfl
  | cons x xs ih =>
    cases x with
    | input | const => exact ih
    | op id =>
      by_cases hid : id ∈ live <;> by_cases hp : p id = true <;>
        simp [Operand.objectIn?, hid, hp, ih]

theorem filter_not_mem_cons (live : List OpId) (o : OpId) (os : List OpId) :
    live.filter (· ∉ o :: os) = (live.filter fun i => !i == o).filter (· ∉ os) := by
  rw [List.filter_filter]
  refine List.filter_congr fun i _ => ?_
  by_cases hi : i = o <;> simp [hi]

/-- A write to the field of an object of a list. -/
def Operation.WritesTo (live : List OpId) (op : Operation) : Prop :=
  op.kind = .setField ∧ ∃ o ∈ live, op.args.head? = some (.op o)

instance (live : List OpId) (op : Operation) : Decidable (op.WritesTo live) :=
  inferInstanceAs (Decidable (op.kind = .setField ∧ ∃ o ∈ live, op.args.head? = some (.op o)))

/-! ### The scan -/

/-- The objects of a list that escape at an operation, in the order of its arguments. -/
def leaving (live : List OpId) (op : Operation) : List OpId :=
  if op.kind = .new ∨ op.WritesTo live then []
  else (op.args.filterMap (Operand.objectIn? live)).eraseDups

/-- The objects that have not escaped after an operation. -/
def remaining (live : List OpId) (op : Operation) : List OpId :=
  if op.kind = .new then live ++ [op.id] else live.filter (· ∉ leaving live op)

/-- The objects that have not escaped after some operations. -/
def unescaped (ops : List Operation) : List OpId := ops.foldl remaining []

/-- The objects that escape during some operations, in order, when those of a list have not escaped
before. -/
def escapeesFrom (live : List OpId) : List Operation → List OpId
  | [] => []
  | op :: ops => leaving live op ++ escapeesFrom (remaining live op) ops

/-- The objects that escape during some operations, in order. -/
def escapees (ops : List Operation) : List OpId := escapeesFrom [] ops

section

variable {live : List OpId} {ops before after : List Operation} {op : Operation} {o : OpId}

theorem mem_leaving_iff : o ∈ leaving live op ↔
    op.kind ≠ .new ∧ ¬ op.WritesTo live ∧ o ∈ live ∧ .op o ∈ op.args := by
  rw [leaving]
  split_ifs with h
  · refine iff_of_false List.not_mem_nil ?_
    rintro ⟨hk, hw, -⟩
    exact h.elim hk hw
  · rw [not_or] at h
    simp only [List.mem_eraseDups, List.mem_filterMap, Operand.objectIn?_eq_some_iff]
    constructor
    · rintro ⟨x, hx, rfl, ho⟩
      exact ⟨h.1, h.2, ho, hx⟩
    · rintro ⟨-, -, ho, hx⟩
      exact ⟨_, hx, rfl, ho⟩

theorem nodup_eraseDups {α : Type} [BEq α] [LawfulBEq α] (xs : List α) : xs.eraseDups.Nodup := by
  match xs with
  | [] => exact List.nodup_nil
  | x :: xs =>
    rw [List.eraseDups_cons, List.nodup_cons]
    refine ⟨?_, nodup_eraseDups _⟩
    simp [List.mem_eraseDups]
termination_by xs.length
decreasing_by exact Nat.lt_succ_of_le (List.length_filter_le _ _)

theorem nodup_leaving (live : List OpId) (op : Operation) : (leaving live op).Nodup := by
  rw [leaving]
  split_ifs
  · exact List.nodup_nil
  · exact nodup_eraseDups _

theorem remaining_of_ne (h : op.kind ≠ .new) :
    remaining live op = live.filter (· ∉ leaving live op) := if_neg h

theorem remaining_eq_self (hk : op.kind ≠ .new) (hleaving : leaving live op = []) :
    remaining live op = live := by
  rw [remaining_of_ne hk, hleaving]
  exact List.filter_eq_self.2 fun _ _ => rfl

theorem unescaped_append_singleton (ops : List Operation) (op : Operation) :
    unescaped (ops ++ [op]) = remaining (unescaped ops) op := by
  rw [unescaped, List.foldl_append]
  rfl

theorem escapeesFrom_append (live : List OpId) (before after : List Operation) :
    escapeesFrom live (before ++ after) =
      escapeesFrom live before ++ escapeesFrom (before.foldl remaining live) after := by
  induction before generalizing live with
  | nil => rfl
  | cons op before ih =>
    rw [List.cons_append, escapeesFrom, ih, escapeesFrom, List.append_assoc, List.foldl_cons]

theorem escapees_append_singleton (ops : List Operation) (op : Operation) :
    escapees (ops ++ [op]) = escapees ops ++ leaving (unescaped ops) op := by
  rw [escapees, escapeesFrom_append, escapeesFrom, escapeesFrom, List.append_nil]
  rfl

theorem escapees_subset_append (before after : List Operation) :
    escapees before ⊆ escapees (before ++ after) := by
  rw [escapees, escapees, escapeesFrom_append]
  exact List.subset_append_left _ _

/-- An object escapes if there is an operation at which it does. -/
theorem mem_escapees_iff : o ∈ escapees ops ↔
    ∃ before u after, ops = before ++ u :: after ∧ o ∈ leaving (unescaped before) u := by
  constructor
  · intro ho
    induction ops using List.reverseRecOn with
    | nil => cases ho
    | append_singleton ops op ih =>
      rw [escapees_append_singleton, List.mem_append] at ho
      rcases ho with ho | ho
      · obtain ⟨before, u, after, rfl, hu⟩ := ih ho
        exact ⟨before, u, after ++ [op], by simp, hu⟩
      · exact ⟨ops, op, [], rfl, ho⟩
  · rintro ⟨before, u, after, rfl, hu⟩
    rw [List.append_cons]
    refine escapees_subset_append _ _ ?_
    rw [escapees_append_singleton]
    exact List.mem_append_right _ hu

/-- **The scan loses no object**: each is on the list or has left it. -/
theorem mem_scan_iff : o ∈ unescaped ops ∨ o ∈ escapees ops ↔
    ∃ d ∈ ops, d.kind = .new ∧ d.id = o := by
  induction ops using List.reverseRecOn with
  | nil => simp [unescaped, escapees, escapeesFrom]
  | append_singleton ops op ih =>
    simp only [unescaped_append_singleton, escapees_append_singleton, List.mem_append, or_and_right,
      exists_or, ← ih, List.mem_singleton, exists_eq_left]
    by_cases hk : op.kind = .new
    · have hleaving : o ∉ leaving (unescaped ops) op := fun h => (mem_leaving_iff.1 h).1 hk
      rw [remaining, if_pos hk, List.mem_append, List.mem_singleton]
      tauto
    · have hsub : o ∈ leaving (unescaped ops) op → o ∈ unescaped ops :=
        fun h => (mem_leaving_iff.1 h).2.2.1
      rw [remaining_of_ne hk, List.mem_filter, decide_eq_true_eq]
      tauto

/-- **An object leaves the list at most once**, and then is not on it any more. -/
theorem nodup_scan (hdistinct : (ops.map (·.id)).Nodup) :
    (unescaped ops ++ escapees ops).Nodup := by
  induction ops using List.reverseRecOn with
  | nil => exact List.nodup_nil
  | append_singleton ops op ih =>
    rw [List.map_append, List.nodup_append] at hdistinct
    obtain ⟨hops, -, hne⟩ := hdistinct
    obtain ⟨hlive, hescaped, hdisjoint⟩ := List.nodup_append.1 (ih hops)
    rw [unescaped_append_singleton, escapees_append_singleton]
    by_cases hk : op.kind = .new
    · -- the new object is none of those before
      have hfresh : op.id ∉ unescaped ops ∧ op.id ∉ escapees ops := by
        rw [← not_or, mem_scan_iff]
        rintro ⟨d, hd, -, hid⟩
        exact hne _ (List.mem_map_of_mem hd) _ (List.mem_singleton_self _) hid
      rw [remaining, if_pos hk, leaving, if_pos (Or.inl hk), List.append_nil, List.append_assoc,
        List.nodup_append, List.singleton_append, List.nodup_cons]
      refine ⟨hlive, ⟨hfresh.2, hescaped⟩, fun i hi j hj => ?_⟩
      rcases List.mem_cons.1 hj with rfl | hj
      · rintro rfl
        exact hfresh.1 hi
      · exact hdisjoint i hi j hj
    · have hsub : ∀ i ∈ leaving (unescaped ops) op, i ∈ unescaped ops :=
        fun i hi => (mem_leaving_iff.1 hi).2.2.1
      rw [remaining_of_ne hk, List.nodup_append, List.nodup_append]
      refine ⟨hlive.filter _, ⟨hescaped, nodup_leaving _ _, fun i hi j hj => ?_⟩,
        fun i hi j hj => ?_⟩
      · exact (hdisjoint j (hsub j hj) i hi).symm
      · obtain ⟨hi, hstays⟩ := List.mem_filter.1 hi
        rw [decide_eq_true_eq] at hstays
        rcases List.mem_append.1 hj with hj | hj
        · exact hdisjoint i hi j hj
        · rintro rfl
          exact hstays hj

theorem nodup_escapees (hdistinct : (ops.map (·.id)).Nodup) : (escapees ops).Nodup :=
  (List.nodup_append.1 (nodup_scan hdistinct)).2.1

theorem not_mem_escapees (hdistinct : (ops.map (·.id)).Nodup) (ho : o ∈ unescaped ops) :
    o ∉ escapees ops := fun h =>
  (List.nodup_append.1 (nodup_scan hdistinct)).2.2 o ho o h rfl

end

end TraceOpt
