import Mathlib.Data.List.Nodup
import TraceOpt.Proofs.Optimization.Halting
import TraceOpt.Proofs.Optimization.Ledger
import TraceOpt.Proofs.Optimization.State
import TraceOpt.Trace.Hash

/-!
# Fresh ids

Fresh allocations take the unused ids one after another.  The first one is above the ids of all
operations of a trace, and arguments are not looked at when it is chosen: an argument that names no
operation may name a fresh id, and is then captured by the allocation that gets this id.

* `Numbered`: allocations that took the unused ids in order.
* `Ends.numbered`: they do so all along an optimization, whether or not it gets through.
* `created_avoid_iff`: when fresh ids differ from all ids that a trace names.
-/

namespace TraceOpt

/-- Allocations that took the unused ids in order, from one state to another. -/
structure Numbered (made : Allocations) (s s' : Run) : Prop where
  /-- The ids that they took are used up. -/
  next : s'.nextId.toNat = s.nextId.toNat + made.length
  /-- Their ids are consecutive. -/
  ids : made.map (·.1.toNat) = List.range' s.nextId.toNat made.length

/-- Feeding operations to stages ends in a state, in a fault or not, with these allocations. -/
inductive Ends [Hashable Operand] (ps : List Pass) (ops : List Operation) (s s' : Run)
    (made : Allocations) : Prop
  | through (hfeed : feed (ps.map Pass.stage) ops s = .ok () s') (h : Feeds ps ops s s' made)
  | halted {e : Fault} (hfeed : feed (ps.map Pass.stage) ops s = .error e s')
      (h : HaltsAmong ps ops s s' made e)

theorem exists_ends [Hashable Operand] (ps : List Pass) (ops : List Operation) (s : Run) :
    ∃ s' made, Ends ps ops s s' made := by
  cases hfeed : feed (ps.map Pass.stage) ops s with
  | ok _ s' =>
    obtain ⟨made, h⟩ := Feeds.of_feed hfeed
    exact ⟨s', made, .through hfeed h⟩
  | error e s' =>
    obtain ⟨made, h⟩ := HaltsAmong.of_feed hfeed
    exact ⟨s', made, .halted hfeed h⟩

section

variable {ps : List Pass} {op : Operation} {ops : List Operation} {xs : List Operand}
  {made made' : Allocations} {s s₁ s' : Run} {e : Fault}

namespace Numbered

/-- Nothing is allocated and no id is used. -/
theorem still (h : s'.nextId = s.nextId) : Numbered [] s s' := ⟨by rw [h]; rfl, rfl⟩

theorem trans (h : Numbered made s s₁) (h' : Numbered made' s₁ s') :
    Numbered (made ++ made') s s' := by
  have hnext' := h'.next
  have hids' := h'.ids
  rw [h.next] at hnext' hids'
  constructor
  · rw [hnext', List.length_append, Nat.add_assoc]
  · rw [List.map_append, h.ids, hids', List.length_append, List.range'_append_1]

theorem force [Hashable Operand] (hid : s.nextId ≠ OpId.last) (ps : List Pass) (x : Operand)
    (o : OpId) : Numbered [(s.nextId, o)] s (s.force ps x o) := by
  refine ⟨?_, rfl⟩
  rw [Run.nextId_force, OpId.toNat_succ hid]
  rfl

theorem le_next (h : Numbered made s s') : s.nextId.toNat ≤ s'.nextId.toNat := by
  rw [h.next]
  exact Nat.le_add_right _ _

/-- The ids that are taken are those from the first unused one on. -/
theorem exists_mem_iff (h : Numbered made s s') {id : OpId} :
    (∃ p ∈ made, p.1 = id) ↔
      s.nextId.toNat ≤ id.toNat ∧ id.toNat < s.nextId.toNat + made.length := by
  have hmem : id.toNat ∈ made.map (·.1.toNat) ↔ ∃ p ∈ made, p.1 = id := by
    rw [List.mem_map]
    refine exists_congr fun p => and_congr_right fun _ => ?_
    exact UInt32.toNat_inj
  rw [← hmem, h.ids, List.mem_range'_1]

theorem nodup (h : Numbered made s s') : (made.map Prod.fst).Nodup := by
  refine List.Nodup.of_map UInt32.toNat ?_
  rw [List.map_map]
  have hids : made.map (UInt32.toNat ∘ Prod.fst) = _ := h.ids
  rw [hids]
  exact List.nodup_range'

end Numbered

/-! ### All along an optimization -/

variable [Hashable Operand]

theorem Forces.numbered (h : Forces ps xs s s' made) : Numbered made s s' := by
  induction h with
  | nil => exact .still rfl
  | skip _ _ ih => exact ih
  | force _ hid _ ih => exact (Numbered.force hid _ _ _).trans ih

theorem Passage.numbered (h : Passage op ps s s' made) : Numbered made s s' := by
  induction h with
  | emit | fold | elide | postpone => exact .still rfl
  | absorb => exact .still (Run.nextId_bindObject ..)
  | unfolded _ _ ih | unguarded _ _ ih | learn _ _ _ _ ih => exact ⟨ih.next, ih.ids⟩
  | force _ _ hargs _ ih => exact Numbered.trans ⟨hargs.numbered.next, hargs.numbered.ids⟩ ih

theorem Feeds.numbered (h : Feeds ps ops s s' made) : Numbered made s s' := by
  induction h with
  | nil => exact .still rfl
  | cons hop _ ih => exact Numbered.trans ⟨hop.numbered.next, hop.numbered.ids⟩ ih

theorem Halts.numbered (h : Halts op ps s s' made e) : Numbered made s s' := by
  induction h with
  | emit | miscounted | unchecked | contradiction | unreceived | unstored => exact .still rfl
  | unfolded _ _ ih | unguarded _ _ ih | learn _ _ _ _ ih => exact ⟨ih.next, ih.ids⟩
  | exhausted _ _ hargs => exact ⟨hargs.numbered.next, hargs.numbered.ids⟩
  | force _ hargs _ ih => exact Numbered.trans ⟨hargs.numbered.next, hargs.numbered.ids⟩ ih

/-- **Fresh allocations take the unused ids in order**, whether or not all operations get
through. -/
theorem Ends.numbered (h : Ends ps ops s s' made) : Numbered made s s' := by
  cases h with
  | through _ h => exact h.numbered
  | halted _ h =>
    obtain ⟨before, op, after, s₁, made₁, made₂, -, rfl, hfeeds, hhalts⟩ := h
    exact hfeeds.numbered.trans ⟨hhalts.numbered.next, hhalts.numbered.ids⟩

end

/-- **When fresh ids differ from all ids that a trace names**: they differ from each other and from
the ids of all operations, and from the ids that arguments name if and only if no argument names one
of the unused ids that are taken. -/
theorem created_avoid_iff [Hashable Operand] (passes : List Pass) (t : Trace) (first : OpId)
    (hfirst : t.nextFreeId? = some first) :
    ∃ s made, Ends passes t.ops (t.startOf passes first) s made ∧ (made.map Prod.fst).Nodup ∧
      (∀ p ∈ made, ∀ op ∈ t.ops, p.1 ≠ op.id) ∧
      ((∀ p ∈ made, ∀ op ∈ t.ops, .op p.1 ∉ op.args) ↔
        ∀ op ∈ t.ops, ∀ id, .op id ∈ op.args →
          ¬ (first.toNat ≤ id.toNat ∧ id.toNat < first.toNat + made.length)) := by
  obtain ⟨s, made, hends⟩ := exists_ends passes t.ops (t.startOf passes first)
  have hnumbered := hends.numbered
  have hmem : ∀ {id : OpId}, (∃ p ∈ made, p.1 = id) ↔
      first.toNat ≤ id.toNat ∧ id.toNat < first.toNat + made.length := hnumbered.exists_mem_iff
  refine ⟨s, made, hends, hnumbered.nodup, fun p hp op hop hid => ?_,
    fun h op hop id harg hid => ?_, fun h p hp op hop harg => ?_⟩
  · have hle := (hmem.1 ⟨p, hp, rfl⟩).1
    have hlt := Trace.lt_of_nextFreeId? hop hfirst
    rw [UInt32.lt_iff_toNat_lt, ← hid] at hlt
    omega
  · obtain ⟨p, hp, rfl⟩ := hmem.2 hid
    exact h p hp op hop harg
  · exact h op hop p.1 harg (hmem.1 ⟨p, hp, rfl⟩)

/-! ### An argument that is captured -/

/-- A call on an object and on an id that no operation has. -/
def dangling : Trace :=
  ⟨0, [⟨0, .new, [], some .ref⟩, ⟨1, .call, [.op 0, .op 2], some .ref⟩]⟩

/-- The id is taken by the allocation of the object. -/
theorem dangling_taken {s : Run} {made : Allocations}
    (h : Ends [.allocationSinking] dangling.ops (dangling.startOf [.allocationSinking] 2) s made) :
    ∃ p ∈ made, p.1 = 2 := by
  have hok : ∃ s₁, feed ([Pass.allocationSinking].map Pass.stage) dangling.ops
      (dangling.startOf [.allocationSinking] 2) = .ok () s₁ ∧ s₁.nextId = 3 := ⟨_, rfl, rfl⟩
  obtain ⟨s₁, hok, hthree⟩ := hok
  have hnumbered := h.numbered
  have hnext : s.nextId = 3 := by
    cases h with
    | through hfeed _ =>
      cases hok.symm.trans hfeed
      exact hthree
    | halted hfeed _ => cases hok.symm.trans hfeed
  have hlength := hnumbered.next
  rw [hnext] at hlength
  exact hnumbered.exists_mem_iff.2 ⟨Nat.le_refl _, by rw [← hlength]; decide⟩

theorem dangling_created :
    dangling.nextFreeId? = some 2 ∧
      ∃ s made, Ends [.allocationSinking] dangling.ops (dangling.startOf [.allocationSinking] 2) s
          made ∧
        (made.map Prod.fst).Nodup ∧ (∀ p ∈ made, ∀ op ∈ dangling.ops, p.1 ≠ op.id) ∧
        ¬ ∀ op ∈ dangling.ops, ∀ id, .op id ∈ op.args →
          ¬ (2 ≤ id.toNat ∧ id.toNat < 2 + made.length) := by
  obtain ⟨s, made, hends, hnodup, hids, hargs⟩ :=
    created_avoid_iff [.allocationSinking] dangling 2 rfl
  refine ⟨rfl, s, made, hends, hnodup, hids, fun h => ?_⟩
  obtain ⟨p, hp, hid⟩ := dangling_taken hends
  refine hargs.2 h p hp ⟨1, .call, [.op 0, .op 2], some .ref⟩ (by decide) ?_
  rw [hid]
  decide

/-- **An argument may be captured**: a fresh id is the one that the call of `dangling` names, and in
the output the call is on the allocation twice. -/
theorem dangling_captured :
    (∃ tally, (optimizeWith [.allocationSinking] dangling).result =
        .ok (⟨0, [⟨2, .new, [], some .ref⟩, ⟨1, .call, [.op 2, .op 2], some .ref⟩]⟩, tally)) ∧
      ¬ ∀ (passes : List Pass) (t : Trace) (first : OpId) (s : Run) (made : Allocations),
        t.nextFreeId? = some first → Ends passes t.ops (t.startOf passes first) s made →
        ∀ p ∈ made, ∀ op ∈ t.ops, .op p.1 ∉ op.args := by
  refine ⟨⟨_, rfl⟩, fun h => ?_⟩
  obtain ⟨s, made, hends⟩ := exists_ends [.allocationSinking] dangling.ops
    (dangling.startOf [.allocationSinking] 2)
  obtain ⟨p, hp, hid⟩ := dangling_taken hends
  refine h _ dangling 2 s made rfl hends p hp ⟨1, .call, [.op 0, .op 2], some .ref⟩ (by decide) ?_
  rw [hid]
  decide

end TraceOpt
