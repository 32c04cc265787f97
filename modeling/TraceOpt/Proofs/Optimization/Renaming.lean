import TraceOpt.Proofs.Optimization.Mirroring
import TraceOpt.Trace.Hash

/-!
# Ids do not matter

If the ids of a trace are renamed and stay different, its optimization ends in the same way, with
the same counters, and the output is the same but for the ids: those of the trace are renamed, and
fresh ones are counted from the first id that is unused after the renaming.

* `relabel`: the ids of the optimization after the renaming.
* `Trace.relabelling`: they keep ids apart, and fresh ids are counted up alike.
* `optimizeWith_rename`: a trace under other ids.
-/

namespace TraceOpt

/-! ### Traces under other ids -/

/-- A trace under other ids. -/
def Trace.rename (f : OpId → OpId) (t : Trace) : Trace :=
  { t with ops := t.ops.map (Operation.rename f) }

/-- The ids of an optimization when those of the trace are renamed by `r`: the first unused id is
`first'` in place of `first`, and fresh ids are counted from there. -/
def relabel (r : OpId → OpId) (first first' id : OpId) : OpId :=
  if id < first then r id else first' + (id - first)

/-- The ids that may be given out from `first` on, as far as counting from `first'` on goes too. -/
def CountedAlike (first first' id : OpId) : Prop :=
  ∃ k, id.toNat = first.toNat + k ∧ first'.toNat + k < 2 ^ 32

section

variable {r : OpId → OpId} {first first' id : OpId}

theorem toNat_relabel {k : Nat} (hid : id.toNat = first.toNat + k)
    (hk : first'.toNat + k < 2 ^ 32) :
    (relabel r first first' id).toNat = first'.toNat + k := by
  have hle : first ≤ id := by
    rw [UInt32.le_iff_toNat_le]
    omega
  rw [relabel, if_neg (UInt32.not_lt.2 hle), UInt32.toNat_add, UInt32.toNat_sub_of_le _ _ hle, hid,
    Nat.add_sub_cancel_left, Nat.mod_eq_of_lt hk]

theorem CountedAlike.next (h : CountedAlike first first' id) (hid : id ≠ OpId.last)
    (hid' : relabel r first first' id ≠ OpId.last) :
    CountedAlike first first' (id + 1) ∧
      relabel r first first' (id + 1) = relabel r first first' id + 1 := by
  obtain ⟨k, hk, hk'⟩ := h
  have hsucc := OpId.toNat_succ hid
  have hsucc' := OpId.toNat_succ hid'
  have hbound := (relabel r first first' id + 1).toNat_lt
  rw [toNat_relabel hk hk'] at hsucc'
  have hcounted : (id + 1).toNat = first.toNat + (k + 1) := by omega
  have hcounted' : first'.toNat + (k + 1) < 2 ^ 32 := by omega
  refine ⟨⟨k + 1, hcounted, hcounted'⟩, UInt32.toNat_inj.1 ?_⟩
  rw [toNat_relabel hcounted hcounted', hsucc', Nat.add_assoc]

end

namespace Trace

variable {t : Trace} {r : OpId → OpId} {first first' : OpId}

theorem relabel_of_mem (hfirst : t.nextFreeId? = some first) {d : Operation} (hd : d ∈ t.ops) :
    relabel r first first' d.id = r d.id :=
  if_pos (lt_of_nextFreeId? hd hfirst)

/-- The ids of a trace become those of the renamed one, and no fresh ids of that. -/
theorem relabel_ne (hfirst : t.nextFreeId? = some first)
    (hfirst' : (t.rename r).nextFreeId? = some first') {d : Operation} (hd : d ∈ t.ops)
    {id : OpId} (hid : CountedAlike first first' id) :
    relabel r first first' d.id ≠ relabel r first first' id := by
  obtain ⟨k, hk, hk'⟩ := hid
  have hlt : r d.id < first' := lt_of_nextFreeId? (List.mem_map_of_mem hd) hfirst'
  rw [UInt32.lt_iff_toNat_lt] at hlt
  intro h
  rw [relabel_of_mem hfirst hd] at h
  rw [h, toNat_relabel hk hk'] at hlt
  omega

/-- Other ids for a trace, and for what an optimization adds. -/
def relabelling (hr : ∀ a ∈ t.ops, ∀ b ∈ t.ops, r a.id = r b.id → a.id = b.id)
    (hfirst : t.nextFreeId? = some first) (hfirst' : (t.rename r).nextFreeId? = some first') :
    Relabelling where
  map := relabel r first first'
  used := fun id => (∃ d ∈ t.ops, d.id = id) ∨ CountedAlike first first' id
  fresh := CountedAlike first first'
  inj := by
    rintro i j (⟨a, ha, rfl⟩ | hi) (⟨b, hb, rfl⟩ | hj) h
    · rw [relabel_of_mem hfirst ha, relabel_of_mem hfirst hb] at h
      exact hr a ha b hb h
    · exact absurd h (relabel_ne hfirst hfirst' ha hj)
    · exact absurd h.symm (relabel_ne hfirst hfirst' hb hi)
    · obtain ⟨k, hk, hk'⟩ := hi
      obtain ⟨l, hl, hl'⟩ := hj
      have heq := congrArg UInt32.toNat h
      rw [toNat_relabel hk hk', toNat_relabel hl hl'] at heq
      exact UInt32.toNat_inj.1 (by omega)
  used_of_fresh := Or.inr
  next := CountedAlike.next

theorem WellFormed.within (ht : t.WellFormed) {op : Operation} (hop : op ∈ t.ops) :
    op.Within fun id => ∃ d ∈ t.ops, d.id = id := by
  refine ⟨⟨op, hop, rfl⟩, fun x hx => ?_⟩
  have hdefined := ht.in_scope.definedIn hop hx
  cases x with
  | op id =>
    obtain ⟨d, hd, -, hid⟩ := hdefined
    exact ⟨d, hd, hid⟩
  | input | const => trivial

variable [Hashable Operand]

/-- Nothing is known at the start, under whichever ids. -/
theorem mirrors_startOf {ρ : Relabelling} (t t' : Trace) (ps : List Pass) (hfresh : ρ.fresh first)
    (hmap : ρ.map first = first') : (t.startOf ps first).Mirrors ρ (t'.startOf ps first') where
  valid := HashTrie.valid_empty
  valid' := HashTrie.valid_empty
  find?_rename := fun _ _ => rfl
  within := fun _ _ h => nomatch h
  output := rfl
  fresh := hfresh
  nextId := hmap.symm
  tally := rfl

end Trace

/-! ### Results -/

/-- Optimizations whose courses match give the same result, but for the ids. -/
theorem result_of_matches [Hashable Operand] {ρ : Relabelling} {ps : List Pass} {t t' : Trace}
    {first first' : OpId} (hfirst : t.nextFreeId? = some first)
    (hfirst' : t'.nextFreeId? = some first') (hinputs : t'.inputs = t.inputs)
    (h : Matches ρ (feed (ps.map Pass.stage) t.ops (t.startOf ps first))
      (feed (ps.map Pass.stage) t'.ops (t'.startOf ps first')))
    (hid : (optimizeWith ps t).result ≠ .error .overflow)
    (hid' : (optimizeWith ps t').result ≠ .error .overflow) :
    (optimizeWith ps t').result =
      ((optimizeWith ps t).result.map fun p => (p.1.rename ρ.map, p.2)).mapError
        (Fault.rename ρ.map) := by
  rw [optimizeWith_eq ps t, hfirst] at hid ⊢
  rw [optimizeWith_eq ps t', hfirst'] at hid' ⊢
  dsimp only at hid hid' ⊢
  generalize feed (ps.map Pass.stage) t.ops _ = a, feed (ps.map Pass.stage) t'.ops _ = a'
    at h hid hid'
  cases h with
  | @ok s s' h =>
    have hsize : s'.output.size = s.output.size := by
      rw [← Array.length_toList, h.output, List.length_map, Array.length_toList]
    simp only [Except.map, Except.mapError, Trace.rename, hinputs, h.output, hsize, h.tally]
  | error => rfl
  | overflow => exact absurd rfl hid
  | overflow' => exact absurd rfl hid'

theorem exists_nextFreeId? [Hashable Operand] {ps : List Pass} {t : Trace}
    (hid : (optimizeWith ps t).result ≠ .error .overflow) :
    ∃ first, t.nextFreeId? = some first := by
  cases hfirst : t.nextFreeId? with
  | some first => exact ⟨first, rfl⟩
  | none =>
    rw [optimizeWith_eq, hfirst] at hid
    exact absurd rfl hid

/-- **Ids do not matter**: if the ids of a well-formed trace are renamed and stay different, and ids
run out neither before nor after, the optimization ends in the same way.  If it succeeds, the
counters are the same, and so is the output, but that the ids of the trace are renamed and those of
the optimization are counted from the first that is unused after the renaming.  If it fails, the
fault is the same, but that the operation is named by its new id. -/
theorem optimizeWith_rename [Hashable Operand] (passes : List Pass) (t : Trace) (r : OpId → OpId)
    (ht : t.WellFormed) (hr : ∀ a ∈ t.ops, ∀ b ∈ t.ops, r a.id = r b.id → a.id = b.id)
    (hid : (optimizeWith passes t).result ≠ .error .overflow)
    (hid' : (optimizeWith passes (t.rename r)).result ≠ .error .overflow) :
    ∃ first first', t.nextFreeId? = some first ∧ (t.rename r).nextFreeId? = some first' ∧
      (optimizeWith passes (t.rename r)).result =
        ((optimizeWith passes t).result.map fun p =>
          (p.1.rename (relabel r first first'), p.2)).mapError (Fault.rename r) := by
  obtain ⟨first, hfirst⟩ := exists_nextFreeId? hid
  obtain ⟨first', hfirst'⟩ := exists_nextFreeId? hid'
  refine ⟨first, first', hfirst, hfirst', ?_⟩
  let ρ : Relabelling := Trace.relabelling hr hfirst hfirst'
  have hagree : ∀ id, (∃ d ∈ t.ops, d.id = id) → r id = ρ.map id := by
    rintro _ ⟨d, hd, rfl⟩
    exact (Trace.relabel_of_mem hfirst hd).symm
  have hops : (t.rename r).ops = t.ops.map (Operation.rename ρ.map) :=
    List.map_congr_left fun op hop => Operation.rename_congr (ht.within hop) hagree
  have hcounted : CountedAlike first first' first := ⟨0, rfl, first'.toNat_lt⟩
  have hmap : relabel r first first' first = first' :=
    UInt32.toNat_inj.1 (toNat_relabel (k := 0) rfl first'.toNat_lt)
  have hstart : (t.startOf passes first).Mirrors ρ ((t.rename r).startOf passes first') :=
    Trace.mirrors_startOf t (t.rename r) passes hcounted hmap
  have hfeed := feed_matches passes (fun op hop => (ht.within hop).mono Or.inl) hstart
  rw [← hops] at hfeed
  rw [result_of_matches hfirst hfirst' rfl hfeed hid hid']
  -- a fault is due to an operation of the trace
  cases hresult : (optimizeWith passes t).result with
  | ok => rfl
  | error e =>
    rcases exists_dueTo hresult with rfl | ⟨op, hop, hdue⟩
    · rfl
    · have hop' := hagree op.id ⟨op, hop, rfl⟩
      cases hdue with
      | overflow => rfl
      | arity => simp only [Except.map, Except.mapError, Fault.rename, hop']
      | contradiction => simp only [Except.map, Except.mapError, Fault.rename, hop']

/-- The ids count down, so that fresh ones start at 101. -/
theorem layered_rename :
    layered.WellFormed ∧
      (∀ a ∈ layered.ops, ∀ b ∈ layered.ops, 100 - a.id = 100 - b.id → a.id = b.id) ∧
      (optimizeWith Level.release.passes layered).result ≠ .error .overflow ∧
      (optimizeWith Level.release.passes (layered.rename (100 - ·))).result ≠ .error .overflow ∧
      (optimizeWith Level.release.passes (layered.rename (100 - ·))).result =
        .ok (⟨1, [⟨101, .new, [], some .ref⟩,
          ⟨102, .new, [], some .ref⟩,
          ⟨97, .call, [.op 101, .input 0, .op 102], some .ref⟩,
          ⟨96, .guardTrue, [.op 102], none⟩,
          ⟨94, .intLt, [.const 3, .input 0], some .int⟩,
          ⟨93, .guardFalse, [.op 94], none⟩,
          ⟨103, .new, [], some .ref⟩,
          ⟨90, .setField, [.op 101, .op 103], none⟩,
          ⟨89, .finish, [.op 103, .const 0], none⟩]⟩, layeredTally) := by
  have hwellFormed : layered.WellFormed := by decide
  have hdistinct : ∀ a ∈ layered.ops, ∀ b ∈ layered.ops,
      100 - a.id = 100 - b.id → a.id = b.id := by
    decide
  have hresult : (optimizeWith Level.release.passes layered).result =
      .ok (layeredOutput, layeredTally) := by
    decide +kernel
  have hid : (optimizeWith Level.release.passes layered).result ≠ .error .overflow := by
    rw [hresult]
    exact fun h => nomatch h
  have hid' : (optimizeWith Level.release.passes (layered.rename (100 - ·))).result ≠
      .error .overflow := by
    decide +kernel
  obtain ⟨first, first', hfirst, hfirst', hrenamed⟩ :=
    optimizeWith_rename Level.release.passes layered (100 - ·) hwellFormed hdistinct hid hid'
  obtain rfl : 12 = first := Option.some.inj hfirst
  obtain rfl : 101 = first' := Option.some.inj hfirst'
  refine ⟨hwellFormed, hdistinct, hid, hid', hrenamed.trans ?_⟩
  rw [hresult]
  rfl

end TraceOpt
