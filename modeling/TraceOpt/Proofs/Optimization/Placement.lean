import TraceOpt.Proofs.Optimization.Sinking
import TraceOpt.Trace.Hash

/-!
# Where allocations stand

The output of all built-in stages is cut at what one operation of the trace leaves there.  Since
that operation was treated as the escape scan says, the cut shows for every object whether it is
allocated, where, and under which name the operations after it use it.

* `Cut`, `Trace.WellFormed.cut`: the output around one operation.
* `Dissolved`, `Materialized`: what becomes of an object that does not escape, and of one that does.
* `optimizeWith_release_sunk`: allocations are made for the objects that escape, where they escape.
-/

namespace TraceOpt

section

variable {base : Nat} {seen ops before after : List Operation} {u : Operation}

/-! ### Cutting an optimization -/

theorem Feeds.split [Hashable Operand] {ps : List Pass} {s s' : Run} {made : Allocations}
    (h : Feeds ps (before ++ after) s s' made) :
    ∃ s₁ made₁ made₂, Feeds ps before s s₁ made₁ ∧ Feeds ps after s₁ s' made₂ ∧
      made = made₁ ++ made₂ := by
  induction before generalizing s made with
  | nil => exact ⟨s, [], made, .nil, h, rfl⟩
  | cons op before ih =>
    cases h with
    | cons hop h =>
      obtain ⟨s₁, made₁, made₂, hbefore, hafter, rfl⟩ := ih h
      exact ⟨s₁, _, made₂, .cons hop hbefore, hafter, (List.append_assoc ..).symm⟩

theorem Continues.split (h : Continues base seen (before ++ after)) :
    Continues base seen before ∧ Continues base (seen ++ before) after := by
  obtain ⟨hbefore, hafter⟩ := scoped_append.1 h.in_scope
  refine ⟨⟨fun op hop => h.id_lt op (List.mem_append_left _ hop), ?_, hbefore⟩,
    ⟨fun op hop => h.id_lt op (List.mem_append_right _ hop), ?_, hafter⟩⟩
  · have hsub : (seen ++ before).Sublist (seen ++ (before ++ after)) :=
      (List.sublist_append_left before after).append_left seen
    exact h.distinct.sublist (hsub.map _)
  · rw [List.append_assoc]
    exact h.distinct

theorem Woven.id_cases {first : OpId} {outs : List Operation} (h : Woven first ops outs)
    {d : Operation} (hd : d ∈ outs) : first ≤ d.id ∨ ∃ op ∈ ops, op.id = d.id := by
  induction h with
  | nil => cases hd
  | allocation hid _ ih =>
    rcases List.mem_cons.1 hd with rfl | hd
    · exact Or.inl hid
    · exact ih hd
  | drop _ _ ih =>
    exact (ih hd).imp_right fun ⟨op, hop, hid⟩ => ⟨op, List.mem_cons_of_mem _ hop, hid⟩
  | @keep op ops outs args _ _ ih =>
    rcases List.mem_cons.1 hd with rfl | hd
    · exact Or.inr ⟨op, List.mem_cons_self, rfl⟩
    · exact (ih hd).imp_right fun ⟨op, hop, hid⟩ => ⟨op, List.mem_cons_of_mem _ hop, hid⟩

/-- The output and the allocations around what an operation leaves there: the operation was treated
as the scan says of the operations before it, and nothing else in the output has its id. -/
def Cut (before : List Operation) (u : Operation) (outs : List Operation) (made : Allocations) :
    Prop :=
  ∃ front tail back made₁ made₂ made₃, outs = front ++ (tail ++ back) ∧
    made = made₁ ++ (made₂ ++ made₃) ∧ made₁.map Prod.snd = escapees before ∧
    Treated before (unescaped before) made₁ u made₂ tail ∧ ∀ d ∈ front ++ back, d.id ≠ u.id

/-- **Every operation cuts the output.** -/
theorem Trace.WellFormed.cut [Hashable Operand] {t : Trace} {first : OpId} {log : Array Event}
    {s : Run} {made : Allocations} (ht : t.WellFormed) (hfirst : t.nextFreeId? = some first)
    (hfeeds : Feeds Level.release.passes t.ops { Run.start first with log } s made)
    (hmade : ∀ p ∈ made, first ≤ p.1) (hops : t.ops = before ++ u :: after) :
    Cut before u s.output.toList made := by
  have hcontinues := ht.continues fun op hop => Trace.lt_idBound hop
  have harity := ht.arity
  have hfresh : ∀ op ∈ t.ops, op.id < first := fun op hop => Trace.lt_of_nextFreeId? hop hfirst
  rw [hops] at hfeeds hcontinues harity hfresh
  obtain ⟨hbefore, hrest⟩ := hcontinues.split
  obtain ⟨harity₁, harity₂⟩ := List.forall_mem_append.1 harity
  obtain ⟨harityu, harity₂⟩ := List.forall_mem_cons.1 harity₂
  obtain ⟨s₁, made₁, made', hfeeds₁, hfeeds', rfl⟩ := hfeeds.split
  have hstart := invariant_start hfirst log
  have hinv₁ := hfeeds₁.invariant hstart hbefore
  obtain ⟨hsnd, -, hs₁⟩ := hfeeds₁.sinks hstart hbefore harity₁ sinking_empty
  cases hfeeds' with
  | @cons _ _ _ s₂ _ made₂ made₃ hop hfeeds₂ =>
    obtain ⟨tail, hout, htreated, -⟩ := hop.sinks (hinv₁.congr rfl rfl rfl) hrest.next harityu hs₁
    obtain ⟨back, hback, hwoven⟩ := hfeeds₂.woven (hop.valid hinv₁.valid) harity₂ fun p hp =>
      hmade p (List.mem_append_right _ (List.mem_append_right _ hp))
    refine ⟨s₁.output.toList, tail, back, made₁, made₂, made₃, ?_, rfl, hsnd, htreated,
      List.forall_mem_append.2 ⟨fun d hd => ?_, fun d hd hid => ?_⟩⟩
    · rw [hback, hout, List.append_assoc]
      rfl
    · exact hinv₁.id_ne_of_mem_output hrest.next hd
    · rcases hwoven.id_cases hd with hle | ⟨op, hop, hopd⟩
      · have hlt := hfresh u (List.mem_append_right _ List.mem_cons_self)
        rw [hid] at hle
        exact absurd hlt (UInt32.not_lt.2 hle)
      · have hdistinct := hrest.rest.distinct
        rw [List.map_append, List.nodup_append] at hdistinct
        refine hdistinct.2.2 u.id (List.mem_map_of_mem ?_) op.id (List.mem_map_of_mem hop)
          (hopd.trans hid).symm
        exact List.mem_append_right _ List.mem_cons_self

namespace Cut

variable {outs : List Operation} {made : Allocations} {o : OpId}

/-- Writes to objects that have not escaped leave nothing in the output. -/
theorem absent (h : Cut before u outs made) (hwrites : u.WritesTo (unescaped before)) :
    ∀ d ∈ outs, d.id ≠ u.id := by
  obtain ⟨front, tail, back, made₁, made₂, made₃, rfl, -, -, htreated, hne⟩ := h
  cases htreated with
  | dropped => exact hne
  | kept _ _ hwrites' => exact absurd hwrites hwrites'

/-- Objects that escape are allocated directly before the operation at which they do. -/
theorem placed (h : Cut before u outs made) (ho : o ∈ leaving (unescaped before) u) :
    ∃ a front args back made', outs = front ++ (made'.map allocated ++ { u with args } :: back) ∧
      made' <:+: made ∧ made'.map Prod.snd = leaving (unescaped before) u ∧ (a, o) ∈ made' := by
  obtain ⟨front, tail, back, made₁, made₂, made₃, rfl, rfl, -, htreated, -⟩ := h
  cases htreated with
  | dropped hleaving =>
    rw [hleaving] at ho
    cases ho
  | @kept _ args hmade =>
    rw [← hmade, List.mem_map] at ho
    obtain ⟨⟨a, _⟩, hp, rfl⟩ := ho
    refine ⟨a, front, args, back, made₂, ?_, ⟨made₁, made₃, List.append_assoc ..⟩, hmade, hp⟩
    rw [List.append_assoc, List.singleton_append]

/-- An operation that names an object after it has escaped, or at which it does, is in the output
and names the allocation instead. -/
theorem used (h : Cut before u outs made) (hdistinct : (made.map Prod.fst).Nodup)
    (ho : o ∈ escapees (before ++ [u])) (hguard : ¬ Guarded before (.op o))
    (hargs : .op o ∈ u.args) (hwrites : ¬ u.WritesTo (unescaped before)) :
    ∃ a args, (a, o) ∈ made ∧ { u with args } ∈ outs ∧
      List.Forall₂ (fun x y => x = .op o ↔ y = .op a) u.args args := by
  obtain ⟨front, tail, back, made₁, made₂, made₃, rfl, rfl, hsnd, htreated, -⟩ := h
  rw [escapees_append_singleton, ← hsnd, ← htreated.map_snd, ← List.map_append,
    List.mem_map] at ho
  obtain ⟨⟨a, _⟩, hp, rfl⟩ := ho
  cases htreated with
  | dropped _ hneeded =>
    rw [List.append_nil] at hp
    exact absurd (hneeded _ hp hguard hargs) hwrites
  | @kept _ args hmade hk _ hrenamed =>
    refine ⟨a, args, ?_, by simp, hrenamed.imp fun x y hxy => ⟨fun hx => ?_, fun hy => ?_⟩⟩
    · rw [← List.append_assoc]
      exact List.mem_append_left _ hp
    · exact hxy.of_object _ hp hguard hx
    · obtain ⟨q, hq, hqa, hx⟩ := hxy.of_allocation _ hp hy
      -- ids of allocations are distinct
      rw [← List.append_assoc, List.map_append] at hdistinct
      have hqp := List.inj_on_of_nodup_map hdistinct.of_append_left hq hp hqa
      rw [hx, hqp]

end Cut

/-! ### What becomes of objects -/

/-- An object of which nothing is in the output: neither an allocation nor a write to its field. -/
structure Dissolved (ops outs : List Operation) (made : Allocations) (n : Operation) : Prop where
  /-- No allocation stands for it. -/
  unallocated : ∀ p ∈ made, p.2 ≠ n.id
  /-- No write to its field is left. -/
  unwritten : ∀ w ∈ ops, w.WritesTo [n.id] → ∀ d ∈ outs, d.id ≠ w.id

/-- An object that escapes at an operation and is allocated there under an id. -/
structure Materialized (ops outs : List Operation) (made : Allocations) (n : Operation)
    (before : List Operation) (u : Operation) (a : OpId) : Prop where
  /-- One allocation stands for it. -/
  allocation : ∀ p ∈ made, p.2 = n.id ↔ p = (a, n.id)
  /-- It stands directly before the operation, among the allocations of the objects that escape
  there, in the order in which the operation names them first. -/
  placed : ∃ front args back made',
    outs = front ++ (made'.map allocated ++ { u with args } :: back) ∧ made' <:+: made ∧
    made'.map Prod.snd = leaving (unescaped before) u ∧ (a, n.id) ∈ made'
  /-- No write to its field is left of those before. -/
  unwritten : ∀ w ∈ before, w.WritesTo [n.id] → ∀ d ∈ outs, d.id ≠ w.id
  /-- Operations from there on that name the object name the allocation in the output, other than
  those that write to an object that has not escaped. -/
  used : ∀ before' v after', ops = before' ++ v :: after' → before <+: before' →
    n.result ∈ v.args → ¬ v.WritesTo (unescaped before') →
    ∃ args, { v with args } ∈ outs ∧
      List.Forall₂ (fun x y => x = n.result ↔ y = .op a) v.args args

/-- Allocations in the output of a trace that are those of the objects that escape. -/
structure Sunk (t out : Trace) (first : OpId) (made : Allocations) : Prop where
  /-- They have ids that the trace does not use. -/
  fresh : ∀ p ∈ made, first ≤ p.1
  /-- They have different ids. -/
  distinct : (made.map Prod.fst).Nodup
  /-- There are no others. -/
  allocations : out.ops.filter (·.kind = .new) = made.map allocated
  /-- They stand for the objects that escape, in order. -/
  objects : made.map Prod.snd = escapees t.ops
  /-- The objects themselves are not named in the output. -/
  unnamed : ∀ n ∈ t.ops, n.kind = .new → ∀ d ∈ out.ops, d.id ≠ n.id ∧ n.result ∉ d.args
  /-- Writes to objects that have not escaped are left out. -/
  absorbed : ∀ before w after, t.ops = before ++ w :: after → w.WritesTo (unescaped before) →
    ∀ d ∈ out.ops, d.id ≠ w.id
  /-- An object that escapes nowhere is gone. -/
  dissolved : ∀ n ∈ t.ops, n.kind = .new →
    (∀ before u after, t.ops = before ++ u :: after → n.id ∉ leaving (unescaped before) u) →
    Dissolved t.ops out.ops made n
  /-- An object that escapes, and is checked by no guard, is allocated where it does. -/
  materialized : ∀ n ∈ t.ops, n.kind = .new → ¬ Guarded t.ops n.result →
    ∀ before u after, t.ops = before ++ u :: after → n.id ∈ leaving (unescaped before) u →
      ∃ a, Materialized t.ops out.ops made n before u a

variable {t : Trace} {n : Operation} {outs : List Operation} {made : Allocations}

/-- An object that an operation names has been scanned before. -/
theorem Trace.WellFormed.scanned (ht : t.WellFormed) (hn : n ∈ t.ops) (hk : n.kind = .new)
    (hops : t.ops = before ++ u :: after) (hu : n.result ∈ u.args) :
    n.id ∈ unescaped before ∨ n.id ∈ escapees before := by
  have hscope := ht.in_scope
  rw [hops] at hscope
  obtain ⟨d, hd, -, hid⟩ := (scoped_append.1 hscope).2.1 _ hu
  have hmem : d ∈ t.ops := by
    rw [hops]
    exact List.mem_append_left _ hd
  obtain rfl := List.inj_on_of_nodup_map ht.distinct hmem hn hid
  exact mem_scan_iff.2 ⟨d, hd, hk, rfl⟩

/-- Writes to an object are lost up to where it escapes. -/
theorem Trace.WellFormed.unwritten (ht : t.WellFormed) (hn : n ∈ t.ops) (hk : n.kind = .new)
    (hcut : ∀ before u after, t.ops = before ++ u :: after → Cut before u outs made)
    (hops : t.ops = before ++ after) (hescapees : n.id ∉ escapees before) {w : Operation}
    (hw : w ∈ before) (hwrites : w.WritesTo [n.id]) : ∀ d ∈ outs, d.id ≠ w.id := by
  obtain ⟨before₁, before₂, rfl⟩ := List.append_of_mem hw
  have hsplit : t.ops = before₁ ++ w :: (before₂ ++ after) := by simp [hops]
  obtain ⟨hset, o, ho, hhead⟩ := hwrites
  obtain rfl := List.mem_singleton.1 ho
  refine (hcut _ _ _ hsplit).absent ⟨hset, n.id, ?_, hhead⟩
  refine (ht.scanned hn hk hsplit (List.mem_of_mem_head? hhead)).resolve_right fun hescaped => ?_
  exact hescapees (escapees_subset_append _ _ hescaped)

/-- **An object that escapes is allocated where it does.** -/
theorem Trace.WellFormed.materialized (ht : t.WellFormed) (hn : n ∈ t.ops) (hk : n.kind = .new)
    (hguard : ¬ Guarded t.ops n.result)
    (hcut : ∀ before u after, t.ops = before ++ u :: after → Cut before u outs made)
    (hdistinct : (made.map Prod.fst).Nodup) (hsnd : made.map Prod.snd = escapees t.ops)
    (hops : t.ops = before ++ u :: after) (hu : n.id ∈ leaving (unescaped before) u) :
    ∃ a, Materialized t.ops outs made n before u a := by
  obtain ⟨a, front, args, back, made', houts, hmade₂, hmade, ha⟩ := (hcut _ _ _ hops).placed hu
  have hnodup : (made.map Prod.snd).Nodup := hsnd ▸ nodup_escapees ht.distinct
  have hunique : ∀ p ∈ made, p.2 = n.id ↔ p = (a, n.id) := fun p hp =>
    ⟨fun hpn => List.inj_on_of_nodup_map hnodup hp (hmade₂.subset ha) hpn, fun hpa => by rw [hpa]⟩
  have hbefore : n.id ∉ escapees before := by
    refine not_mem_escapees ?_ (mem_leaving_iff.1 hu).2.2.1
    have hsub : before.Sublist t.ops := hops ▸ List.sublist_append_left _ _
    exact ht.distinct.sublist (hsub.map _)
  refine ⟨a, hunique, ⟨front, args, back, made', houts, hmade₂, hmade, ha⟩,
    fun w hw => ht.unwritten hn hk hcut hops hbefore hw,
    fun before' v after' hsplit hle hv hwrites => ?_⟩
  have hescaped : n.id ∈ escapees (before' ++ [v]) := by
    have hthis : before ++ [u] <+: t.ops := ⟨after, (List.append_cons ..).symm.trans hops.symm⟩
    have hlater : before' ++ [v] <+: t.ops := ⟨after', (List.append_cons ..).symm.trans hsplit.symm⟩
    obtain ⟨rest, hrest⟩ := List.prefix_of_prefix_length_le hthis hlater (by
      simpa using hle.length_le)
    rw [← hrest]
    refine escapees_subset_append _ _ ?_
    rw [escapees_append_singleton]
    exact List.mem_append_right _ hu
  have hguard' : ¬ Guarded before' n.result := by
    refine fun hg => hguard (hg.mono ?_)
    rw [hsplit]
    exact List.subset_append_left _ _
  obtain ⟨a', args', ha', hmem, hargs⟩ :=
    (hcut _ _ _ hsplit).used hdistinct hescaped hguard' hv hwrites
  obtain rfl := congrArg Prod.fst ((hunique _ ha').1 rfl)
  exact ⟨args', hmem, hargs⟩

/-- The objects of the trace have no name in the output, where all allocations are fresh. -/
theorem Invariant.unnamed [Hashable Operand] {s : Run} {first : OpId}
    (hinv : Invariant base t.ops made s) (ht : t.WellFormed)
    (hfirst : t.nextFreeId? = some first) (hmade : ∀ p ∈ made, first ≤ p.1)
    (hnew : s.output.toList.filter (·.kind = .new) = made.map allocated)
    (hn : n ∈ t.ops) (hk : n.kind = .new) :
    ∀ d ∈ s.output.toList, d.id ≠ n.id ∧ n.result ∉ d.args := by
  have hid : ∀ d ∈ s.output.toList, d.id ≠ n.id := by
    intro d hd hdn
    have hfresh : ∃ p ∈ made, allocated p = d := by
      rcases hinv.output.named d hd with ⟨e, he, hed, hkind⟩ | hp
      · obtain rfl := List.inj_on_of_nodup_map ht.distinct he hn (hed.trans hdn)
        rw [← List.mem_map, ← hnew, List.mem_filter, decide_eq_true_eq]
        exact ⟨hd, hkind.symm.trans hk⟩
      · exact hp
    obtain ⟨p, hp, rfl⟩ := hfresh
    have hlt := Trace.lt_of_nextFreeId? hn hfirst
    rw [← hdn] at hlt
    exact absurd hlt (UInt32.not_lt.2 (hmade p hp))
  refine fun d hd => ⟨hid d hd, fun harg => ?_⟩
  obtain ⟨e, he, -, hen⟩ := hinv.output.in_scope.definedIn hd harg
  exact hid e he hen

end

/-- **Allocations are made for the objects that escape, where they escape.** -/
theorem optimizeWith_release_sunk [Hashable Operand] (t out : Trace) (tally : Tally)
    (ht : t.WellFormed) (h : (optimizeWith Level.release.passes t).result = .ok (out, tally)) :
    ∃ first made, t.nextFreeId? = some first ∧ Sunk t out first made := by
  obtain ⟨first, log, s, made, hfirst, hfeeds, hinv, hmade, rfl⟩ := ht.exists_feeds h
  have hcut : ∀ before u after, t.ops = before ++ u :: after → Cut before u s.output.toList made :=
    fun before u after hops => ht.cut hfirst hfeeds hmade hops
  obtain ⟨hsnd, ⟨outs, hout, hnew⟩, -⟩ := hfeeds.sinks (invariant_start hfirst log)
    (ht.continues fun op hop => Trace.lt_idBound hop) ht.arity sinking_empty
  obtain rfl : s.output.toList = outs := hout
  have hdistinct : (made.map Prod.fst).Nodup := by
    have hfilter : (s.output.toList.filter (·.kind = .new)).Sublist s.output.toList :=
      List.filter_sublist
    have hids := hinv.output.distinct.sublist (hfilter.map _)
    rw [hnew, List.map_map] at hids
    exact hids
  refine ⟨first, made, hfirst, hmade, hdistinct, hnew, hsnd, ?_, ?_, ?_, ?_⟩
  · exact fun n hn hk => hinv.unnamed ht hfirst hmade hnew hn hk
  · exact fun before w after hops hwrites => (hcut before w after hops).absent hwrites
  · intro n hn hk hstays
    have hescapees : n.id ∉ escapees t.ops := by
      rw [mem_escapees_iff]
      rintro ⟨before, u, after, hops, hu⟩
      exact hstays before u after hops hu
    refine ⟨fun p hp hpn => hescapees ?_, fun w hw => ?_⟩
    · rw [escapees, ← hsnd, ← hpn]
      exact List.mem_map_of_mem hp
    · exact ht.unwritten hn hk hcut (List.append_nil _).symm hescapees hw
  · exact fun n hn hk hguard before u after hops hu =>
      ht.materialized hn hk hguard hcut hdistinct hsnd hops hu

/-! ### Objects stored into one another -/

/-- Three objects, each stored into the next.  The first two escape at a call, and are used and
stored again afterwards; the third never does. -/
def nested : Trace :=
  ⟨0, [⟨0, .new, [], some .ref⟩,
    ⟨1, .new, [], some .ref⟩,
    ⟨2, .new, [], some .ref⟩,
    ⟨3, .setField, [.op 1, .op 0], none⟩,
    ⟨4, .setField, [.op 2, .op 1], none⟩,
    ⟨5, .call, [.op 1, .op 0, .op 1], some .ref⟩,
    ⟨6, .setField, [.op 0, .op 1], none⟩,
    ⟨7, .setField, [.op 2, .op 0], none⟩,
    ⟨8, .finish, [.op 0], none⟩]⟩

/-- The second object is allocated before the first one, as the call names it first. -/
def nestedOutput : Trace :=
  ⟨0, [⟨9, .new, [], some .ref⟩,
    ⟨10, .new, [], some .ref⟩,
    ⟨5, .call, [.op 9, .op 10, .op 9], some .ref⟩,
    ⟨6, .setField, [.op 10, .op 9], none⟩,
    ⟨8, .finish, [.op 10], none⟩]⟩

/-- The counters of that optimization. -/
def nestedTally : Tally where
  opsIn := 9
  opsOut := 5
  virtualsCreated := 3
  virtualsForced := 2
  setfieldsAbsorbed := 3
  stageCounts := [("constant_fold", 9), ("guard_propagation", 9), ("virtualize", 9)]

theorem nested_sunk :
    nested.WellFormed ∧
      (optimizeWith Level.release.passes nested).result = .ok (nestedOutput, nestedTally) ∧
      ∃ first made, nested.nextFreeId? = some first ∧ Sunk nested nestedOutput first made ∧
        Dissolved nested.ops nestedOutput.ops made ⟨2, .new, [], some .ref⟩ ∧
        ∃ a, Materialized nested.ops nestedOutput.ops made ⟨0, .new, [], some .ref⟩
          (nested.ops.take 5) ⟨5, .call, [.op 1, .op 0, .op 1], some .ref⟩ a := by
  have hwellFormed : nested.WellFormed := by decide
  have hresult : (optimizeWith Level.release.passes nested).result =
      .ok (nestedOutput, nestedTally) := by
    decide +kernel
  obtain ⟨first, made, hfirst, hsunk⟩ :=
    optimizeWith_release_sunk nested nestedOutput nestedTally hwellFormed hresult
  refine ⟨hwellFormed, hresult, first, made, hfirst, hsunk, hsunk.dissolved _ (by decide) rfl ?_,
    hsunk.materialized _ (by decide) rfl (by decide) _ _ (nested.ops.drop 6) rfl (by decide)⟩
  intro before u after hops hu
  have hescapees := mem_escapees_iff.2 ⟨before, u, after, hops, hu⟩
  revert hescapees
  decide

end TraceOpt
