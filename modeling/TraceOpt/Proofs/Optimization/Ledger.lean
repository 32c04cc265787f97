import Mathlib.Data.List.Induction
import TraceOpt.Proofs.Optimization.Passage

/-!
# Ids in use

While a trace is optimized, ids are kept apart by a bound: the ids of the trace are below it, and
the ids of fresh allocations are not.  A fresh allocation stands for a `new` operation of the trace:
for its object, or for what its object stands for in turn when that is a fresh allocation itself.

* `Allocations.origin`: the `new` operation that a fresh allocation stands for.
* `Ledger.see`, `Ledger.allocate`: how the ids in use grow.
-/

namespace TraceOpt

theorem Trace.toNat_of_nextFreeId? {t : Trace} {id : OpId} (h : t.nextFreeId? = some id) :
    id.toNat = t.idBound := by
  unfold nextFreeId? at h
  split_ifs at h with hle
  rw [← Option.some.inj h]
  exact UInt32.toNat_ofNat_of_lt' (Nat.lt_succ_of_le hle)

theorem OpId.toNat_succ {id : OpId} (h : id ≠ last) : (id + 1).toNat = id.toNat + 1 := by
  have hlast : id.toNat ≠ last.toNat := fun h' => h (UInt32.toNat_inj.1 h')
  have hlt := id.toNat_lt
  have hval : last.toNat = 4294967295 := rfl
  rw [UInt32.toNat_add]
  change (id.toNat + 1) % 2 ^ 32 = _
  omega

/-- The id that an id stands for: an allocation stands for what its object stands for. -/
def Allocations.origin (made : Allocations) : OpId → OpId :=
  made.foldl (fun origin p i => if i = p.1 then origin p.2 else origin i) fun i => i

theorem Allocations.origin_append (made : Allocations) (p : OpId × OpId) (i : OpId) :
    Allocations.origin (made ++ [p]) i =
      if i = p.1 then Allocations.origin made p.2 else Allocations.origin made i := by
  rw [origin, List.foldl_append]
  rfl

theorem Allocations.origin_of_forall_ne {made : Allocations} {i : OpId}
    (h : ∀ p ∈ made, i ≠ p.1) : Allocations.origin made i = i := by
  induction made using List.reverseRecOn with
  | nil => rfl
  | append_singleton made p ih =>
    obtain ⟨hmade, hp⟩ := List.forall_mem_append.1 h
    rw [origin_append, if_neg (hp p List.mem_cons_self), ih hmade]

/-- An id that names an object: a `new` operation seen, or a fresh allocation. -/
def IsObject (seen : List Operation) (made : Allocations) (id : OpId) : Prop :=
  (∃ d ∈ seen, d.kind = .new ∧ d.id = id) ∨ ∃ p ∈ made, p.1 = id

/-- The ids in use: those of the trace are below a bound, and fresh ones are not; every fresh one
stands for a `new` operation of the trace. -/
structure Ledger (base : Nat) (seen : List Operation) (made : Allocations) (nextId : OpId) :
    Prop where
  /-- Unused ids are not below the bound. -/
  base_le : base ≤ nextId.toNat
  /-- The ids of the trace are below the bound. -/
  seen_lt : ∀ d ∈ seen, d.id.toNat < base
  /-- Fresh ids are not below the bound, and no longer unused. -/
  fresh : ∀ p ∈ made, base ≤ p.1.toNat ∧ p.1.toNat < nextId.toNat
  /-- Objects that are allocated have ids in use. -/
  older : ∀ p ∈ made, p.2.toNat < nextId.toNat
  /-- Fresh ids stand for `new` operations. -/
  origin_new : ∀ p ∈ made, ∃ d ∈ seen, d.kind = .new ∧ d.id = Allocations.origin made p.1
  /-- An allocation stands for what its object stands for. -/
  origin_eq : ∀ p ∈ made, Allocations.origin made p.1 = Allocations.origin made p.2

namespace Ledger

variable {base : Nat} {seen : List Operation} {made : Allocations} {nextId : OpId}

theorem origin_of_lt (h : Ledger base seen made nextId) {i : OpId} (hi : i.toNat < base) :
    Allocations.origin made i = i := by
  refine Allocations.origin_of_forall_ne fun p hp hip => ?_
  have := (h.fresh p hp).1
  rw [hip] at hi
  omega

theorem lt_nextId (h : Ledger base seen made nextId) {i : OpId} (hi : IsObject seen made i) :
    i.toNat < nextId.toNat := by
  rcases hi with ⟨d, hd, -, rfl⟩ | ⟨p, hp, rfl⟩
  · exact Nat.lt_of_lt_of_le (h.seen_lt d hd) h.base_le
  · exact (h.fresh p hp).2

theorem exists_new (h : Ledger base seen made nextId) {i : OpId} (hi : IsObject seen made i) :
    ∃ d ∈ seen, d.kind = .new ∧ d.id = Allocations.origin made i := by
  rcases hi with ⟨d, hd, hk, rfl⟩ | ⟨p, hp, rfl⟩
  · exact ⟨d, hd, hk, (h.origin_of_lt (h.seen_lt d hd)).symm⟩
  · exact h.origin_new p hp

/-- One more operation of the trace is seen. -/
theorem see (h : Ledger base seen made nextId) {op : Operation} (hop : op.id.toNat < base) :
    Ledger base (seen ++ [op]) made nextId := by
  refine ⟨h.base_le, fun d hd => ?_, h.fresh, h.older, fun p hp => ?_, h.origin_eq⟩
  · rcases List.mem_append.1 hd with hd | hd
    · exact h.seen_lt d hd
    · rwa [List.mem_singleton.1 hd]
  · obtain ⟨d, hd, hk⟩ := h.origin_new p hp
    exact ⟨d, List.mem_append_left _ hd, hk⟩

/-- One more object is allocated. -/
theorem allocate (h : Ledger base seen made nextId) {o : OpId} (ho : IsObject seen made o)
    (hid : nextId ≠ OpId.last) : Ledger base seen (made ++ [(nextId, o)]) (nextId + 1) := by
  have hlt := h.lt_nextId ho
  have hsucc := OpId.toNat_succ hid
  -- ids in use stand for what they stood for, since the new one is none of them
  have hold : ∀ i : OpId, i.toNat < nextId.toNat →
      Allocations.origin (made ++ [(nextId, o)]) i = Allocations.origin made i := by
    intro i hi
    rw [Allocations.origin_append, if_neg]
    rintro rfl
    exact Nat.lt_irrefl _ hi
  have hnew : Allocations.origin (made ++ [(nextId, o)]) nextId = Allocations.origin made o := by
    rw [Allocations.origin_append, if_pos rfl]
  refine ⟨?_, h.seen_lt, ?_, ?_, ?_, ?_⟩
  · rw [hsucc]
    exact Nat.le_succ_of_le h.base_le
  all_goals
    refine List.forall_mem_append.2 ⟨fun p hp => ?_, List.forall_mem_singleton.2 ?_⟩
  · have := h.fresh p hp
    omega
  · rw [hsucc]
    exact ⟨h.base_le, Nat.lt_succ_self _⟩
  · have := h.older p hp
    omega
  · rw [hsucc]
    exact Nat.lt_succ_of_lt hlt
  · rw [hold p.1 (h.fresh p hp).2]
    exact h.origin_new p hp
  · rw [hnew]
    exact h.exists_new ho
  · rw [hold p.1 (h.fresh p hp).2, hold p.2 (h.older p hp)]
    exact h.origin_eq p hp
  · rw [hnew, hold o hlt]

end Ledger

end TraceOpt
