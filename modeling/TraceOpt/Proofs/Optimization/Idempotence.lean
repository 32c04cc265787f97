import TraceOpt.Proofs.Optimization.Conservation
import TraceOpt.Proofs.Optimization.Faults
import TraceOpt.Proofs.Optimization.NormalForm
import TraceOpt.Trace.Hash

/-!
# Optimizing once is enough

Operations in normal form give the built-in stages nothing to do but to put off each allocation and
to make it again at the same place.  Optimizing a second time hence gives the same operations, with
new ids for the allocations: the unused ones, in order.

* `Operation.rename`, `Trace.renumber`: operations under other ids, and the ids for allocations.
* `Released.renames`, `Feeds.renames`: what is put off is made again, and the rest stays.
* `Halts.eq_overflow`: an operation in normal form is held up only if ids run out.
* `optimizeWith_release_idempotent`: optimizing the output of an optimization.
-/

namespace TraceOpt

/-! ### Operations under other ids -/

/-- An operand under other ids. -/
def Operand.rename (f : OpId → OpId) : Operand → Operand
  | .op id => .op (f id)
  | x => x

/-- An operation under other ids: its own, and those that its arguments name. -/
def Operation.rename (f : OpId → OpId) (op : Operation) : Operation :=
  { op with id := f op.id, args := op.args.map (Operand.rename f) }

/-- The ids of the operations that allocate, in order. -/
def objects (ops : List Operation) : List OpId := (ops.filter (·.kind = .new)).map (·.id)

/-- The ids of a trace when its allocations are numbered from an id on. -/
def Trace.renumber (t : Trace) (first id : OpId) : OpId :=
  if id ∈ objects t.ops then first + .ofNat ((objects t.ops).idxOf id) else id

/-- New ids for the objects that are allocated, and for nothing else. -/
structure Renames (f : OpId → OpId) (made : Allocations) (ops : List Operation) : Prop where
  /-- Objects have the ids of their allocations. -/
  allocated : ∀ p ∈ made, f p.2 = p.1
  /-- Other operations keep their ids. -/
  others : ∀ d ∈ ops, d.kind ≠ .new → f d.id = d.id

/-- The allocations of objects that are put off, under other ids. -/
def pending (f : OpId → OpId) (live : List OpId) : List Operation :=
  live.map fun o => ⟨f o, .new, [], some .ref⟩

/-- Nothing but literals and what guards have checked is known to be an integer. -/
def OnlyChecked [Hashable Operand] (seen : List Operation) (s : Run) : Prop :=
  ∀ x, (s.resolve x).isConstant = true → x.isLiteral = true ∨ Guarded seen x

section

variable {base : Nat} {seen ops : List Operation} {made made' : Allocations} {s s₀ s₁ s' : Run}
  {op : Operation} {args : List Operand} {x y : Operand} {f : OpId → OpId} {e : Fault}

/-! ### What is known -/

variable [Hashable Operand]

namespace OnlyChecked

/-- What an operation in normal form uses is not known, literals apart. -/
theorem isConstant_eq_false (h : OnlyChecked seen s) (hop : Residual seen op) (hx : x ∈ op.args)
    (hliteral : x.isLiteral = false) : (s.resolve x).isConstant = false := by
  rw [← Bool.not_eq_true]
  intro hconstant
  rcases h x hconstant with hx' | hguarded
  · rw [hliteral] at hx'
    cases hx'
  · exact hop.unchecked x hx hguarded

theorem congr (h : OnlyChecked seen s) (halike : s.Alike s') : OnlyChecked seen s' := by
  intro x hx
  rw [halike.resolve] at hx
  exact h x hx

theorem mono (h : OnlyChecked seen s) (op : Operation)
    (hresolve : ∀ x, (s'.resolve x).isConstant = true → (s.resolve x).isConstant = true) :
    OnlyChecked (seen ++ [op]) s' := fun x hx =>
  (h x (hresolve x hx)).imp_right fun hg => hg.mono (List.subset_append_left _ _)

/-- An object is bound to the result of an operation. -/
theorem postpone (h : OnlyChecked seen s) (hs : s.bindings.Valid) (op : Operation) :
    OnlyChecked (seen ++ [op]) (s.postpone op) := by
  refine h.mono op fun x hx => ?_
  by_cases hne : x = op.result
  · have hfind := Run.find?_bind_value (x := op.result) (v := .blank op.id) hs
      (fun y hy => nomatch hy) op.result
    rw [if_pos rfl] at hfind
    have hblank : (s.bind op.result (.blank op.id)).resolve op.result = .blank op.id :=
      Run.resolve_of_find? hfind
    rw [hne] at hx
    change ((s.bind op.result (.blank op.id)).resolve op.result).isConstant = true at hx
    rw [hblank] at hx
    cases hx
  · rw [← hx]
    exact congrArg Value.isConstant (Run.resolve_bind_of_ne hs hne).symm

/-- A guard tells what its argument is. -/
theorem learn (h : OnlyChecked seen s) (hs : s.bindings.Valid) (hk : op.kind ∈ Kind.guards)
    (hx : x ∈ op.args) : OnlyChecked (seen ++ [op]) (s.learn op x) := by
  intro y hy
  by_cases hne : y = x
  · rw [hne]
    exact Or.inr (guarded_append_singleton.2 (Or.inr ⟨hk, hx⟩))
  · refine (h y ?_).imp_right fun hg => hg.mono (List.subset_append_left _ _)
    rw [← hy]
    exact congrArg Value.isConstant (Run.resolve_bind_of_ne hs hne).symm

end OnlyChecked

/-! ### One operation -/

namespace Emission

variable (h : Emission op s s₁ args made') (hinv : Invariant base seen made s)
  (hop : Next base seen op) (hs : Sinking seen (unescaped seen) made s.bindings)
  (hmade : made.map Prod.snd = escapees seen) (hknown : OnlyChecked seen s)
  (hresidual : Residual seen op)
include h hinv hs hresidual

/-- The objects that are put off are allocated in order. -/
theorem map_allocated (hf : ∀ p ∈ made', f p.2 = p.1) :
    made'.map allocated = pending f (unescaped seen) := by
  obtain ⟨hmade', -, -⟩ := h.sinks hinv hs
  rw [hresidual.escape h.kind] at hmade'
  rw [← hmade', pending, List.map_map]
  refine List.map_congr_left fun p hp => ?_
  rw [Function.comp_apply, hf p hp]
  rfl

include hop hmade hknown

/-- What stands in the output for an argument is the argument under its new id. -/
theorem place_eq_rename (hf : Renames f (made ++ made') seen) (hx : x ∈ op.args)
    (hy : s₁.place x = .ok y) : y = x.rename f := by
  obtain ⟨hmade', -, hs₁⟩ := h.sinks hinv hs
  rw [hresidual.escape h.kind] at hmade'
  rcases Run.resolve_of_place hy with ⟨n, hn, rfl⟩ | hresolve
  · cases x with
    | const m =>
      cases hn
      rfl
    | input | op =>
      have hconstant := h.isConstant_of_resolve hinv (by rw [hn]; rfl)
      rw [hknown.isConstant_eq_false hresidual hx rfl] at hconstant
      cases hconstant
  · rcases hs₁.resolve_operand hresolve with ⟨rfl, hnone⟩ | ⟨p, hp, rfl, rfl⟩
    · cases y with
      | input | const => rfl
      | op id =>
        obtain ⟨d, hd, -, rfl⟩ := hop.args _ hx
        by_cases hk : d.kind = .new
        · -- an object has been allocated, and is bound to its allocation
          have hallocated : ∃ p ∈ made ++ made', p.2 = d.id := by
            rcases mem_scan_iff.2 ⟨d, hd, hk, rfl⟩ with hlive | hescaped
            · rw [← hmade', List.mem_map] at hlive
              obtain ⟨p, hp, hid⟩ := hlive
              exact ⟨p, List.mem_append_right _ hp, hid⟩
            · rw [← hmade, List.mem_map] at hescaped
              obtain ⟨p, hp, hid⟩ := hescaped
              exact ⟨p, List.mem_append_left _ hp, hid⟩
          obtain ⟨p, hp, hid⟩ := hallocated
          rcases hs₁.allocated p hp with hbound | hguarded
          · rw [hid, hnone] at hbound
            cases hbound
          · rw [hid] at hguarded
            exact absurd hguarded (hresidual.unchecked _ hx)
        · rw [Operand.rename, hf.others d hd hk]
    · rw [Operand.rename, hf.allocated p hp]

/-- The operation goes to the output under new ids, after the allocations that were put off. -/
theorem output_emit (hf : Renames f (made ++ made') (seen ++ [op])) :
    s₁.output.toList ++ [{ op with args }] =
      s.output.toList ++ pending f (unescaped seen) ++ [op.rename f] := by
  obtain ⟨hothers, hself⟩ := List.forall_mem_append.1 hf.others
  have hargs : args = op.args.map (Operand.rename f) := by
    have heq : List.Forall₂ (fun x y => x.rename f = y) op.args args :=
      ((List.forall₂_and_left _ _).2 ⟨fun x hx => hx, h.placed⟩).imp fun x y hxy =>
        (h.place_eq_rename hinv hop hs hmade hknown hresidual ⟨hf.allocated, hothers⟩ hxy.1
          hxy.2).symm
    rwa [← List.forall₂_map_left_iff (R := (· = ·)), List.forall₂_eq_eq_eq, eq_comm] at heq
  rw [h.output, h.map_allocated hinv hs hresidual fun p hp => hf.allocated p
    (List.mem_append_right _ hp), Operation.rename, hself op List.mem_cons_self h.kind, hargs]

end Emission

/-- **An operation in normal form stays**, and if it allocates it is put off. -/
theorem Released.renames (h : Released op s s' made')
    (hinv : Invariant base seen made s) (hop : Next base seen op) (harity : op.HasArity)
    (hs : Sinking seen (unescaped seen) made s.bindings)
    (hmade : made.map Prod.snd = escapees seen) (hknown : OnlyChecked seen s)
    (hresidual : Residual seen op) :
    OnlyChecked (seen ++ [op]) s' ∧ ∀ f, Renames f (made ++ made') (seen ++ [op]) →
      s'.output.toList ++ pending f (unescaped (seen ++ [op])) =
        s.output.toList ++ pending f (unescaped seen) ++ [op.rename f] := by
  cases h with
  | folded hk hargs =>
    obtain ⟨x, hx, hliteral⟩ := hresidual.arithmetic hk
    have hconstant := hargs x hx
    rw [hknown.isConstant_eq_false hresidual hx hliteral] at hconstant
    cases hconstant
  | elided hk hx hconstant =>
    rw [hknown.isConstant_eq_false hresidual hx (hresidual.guard hk _ hx)] at hconstant
    cases hconstant
  | postponed hk =>
    refine ⟨hknown.postpone hinv.valid op, fun f _ => ?_⟩
    have hargs : op.args = [] := List.length_eq_zero_iff.1 (harity 0 (by rw [hk]; rfl))
    have hrename : op.rename f = ⟨f op.id, .new, [], some .ref⟩ := by
      rw [Operation.rename, hargs, hk, hresidual.type hk]
      rfl
    rw [unescaped_append_singleton, remaining, if_pos hk, pending, List.map_append, hrename,
      ← List.append_assoc]
    rfl
  | absorbed hk harg hx =>
    -- no object is written to before all of them escape
    obtain ⟨rfl, ho⟩ := hs.origin?_eq_some_iff.1 hx
    have hescape := hresidual.escape (by rw [hk]; decide)
    rw [leaving, if_pos (Or.inr ⟨hk, _, ho, Operation.head?_of_arg harg⟩)] at hescape
    rw [← hescape] at ho
    cases ho
  | @emitted s₁ args _ h hk =>
    refine ⟨hknown.mono op fun x => h.isConstant_of_resolve hinv, fun f hf => ?_⟩
    rw [hresidual.unescaped_eq_nil h.kind, s₁.toList_emit,
      h.output_emit hinv hop hs hmade hknown hresidual hf]
    exact List.append_nil _
  | @checked x s₁ args _ h hk harg hx =>
    have hknown₁ : OnlyChecked seen (s₁.emit op args) := fun y hy =>
      hknown y (h.isConstant_of_resolve hinv hy)
    refine ⟨hknown₁.learn (h.invariant hinv).valid hk (Operation.mem_args_of_arg harg),
      fun f hf => ?_⟩
    rw [hresidual.unescaped_eq_nil h.kind, s₁.toList_learn,
      h.output_emit hinv hop hs hmade hknown hresidual hf]
    exact List.append_nil _

omit [Hashable Operand] in
theorem Operation.HasArity.supplied (h : op.HasArity) : op.Supplied := by
  refine ⟨fun hk => h 2 (Kind.arity?_of_mem_arithmetic hk), fun hk => ?_, fun hk => ?_⟩
  · exact Nat.le_of_eq (h 1 (Kind.arity?_of_mem_guards hk)).symm
  · exact Nat.le_of_eq (h 2 (by rw [hk]; rfl)).symm

/-- **An operation in normal form is held up only if ids run out.** -/
theorem Halts.eq_overflow (h : Halts op Level.release.passes s s' made e) (hs : s.Tidy)
    (hsupplied : op.Supplied) (hknown : OnlyChecked seen s) (hresidual : Residual seen op) :
    e = .overflow := by
  have hdue := h.dueTo hs (Or.inl (by decide))
  cases hdue with
  | overflow => rfl
  | arity hlacks => exact absurd hsupplied hlacks
  | contradiction _ hk =>
    cases h with
    | unfolded _ h =>
      cases h with
      | unchecked _ harg => cases (Operation.arg_eq_error (by decide) harg).1
      | contradiction _ harg hx =>
        have hmem := Operation.mem_args_of_arg harg
        have hunknown := hknown.isConstant_eq_false hresidual hmem (hresidual.guard hk _ hmem)
        rw [← Run.resolve_enter s .constantFolding op, hx] at hunknown
        cases hunknown
      | learn _ _ _ h =>
        -- the stage that puts off allocations does not look into guards
        cases h.dueTo (hs.congr rfl (Nat.le_refl _)) (Or.inl List.mem_cons_self) with
        | contradiction hp => exact absurd hp (by decide)
      | unguarded hk' => exact absurd hk hk'

/-! ### Whole traces -/

/-- **What all stages do with operations in normal form**: what is put off is made again under a new
id, and the rest stays. -/
theorem Feeds.renames (h : Feeds Level.release.passes ops s₀ s made)
    (hstart : Invariant base [] [] s₀) (hs₀ : Sinking [] [] [] s₀.bindings)
    (houtput : s₀.output.toList = []) (hknown : OnlyChecked [] s₀) (hops : Continues base [] ops)
    (harity : ∀ op ∈ ops, op.HasArity) (hnormal : NormalFrom [] ops) :
    OnlyChecked ops s ∧ ∀ f, Renames f made ops →
      s.output.toList ++ pending f (unescaped ops) = ops.map (Operation.rename f) := by
  induction ops using List.reverseRecOn generalizing s made with
  | nil =>
    cases h
    refine ⟨hknown, fun f _ => ?_⟩
    rw [houtput]
    rfl
  | append_singleton ops op ih =>
    obtain ⟨hops₁, hops₂⟩ := hops.split
    obtain ⟨harity₁, harity₂⟩ := List.forall_mem_append.1 harity
    obtain ⟨hnormal₁, hresidual⟩ := normalFrom_append_singleton.1 hnormal
    obtain ⟨s₁, s₂, made₁, made₂, hbefore, halike, hreleased, rfl, hinv, hs, hmade⟩ :=
      h.exists_released hstart hs₀ hops harity
    obtain ⟨hknown₁, hout₁⟩ := ih hbefore hops₁ harity₁ hnormal₁
    obtain ⟨hknown₂, hout₂⟩ := hreleased.renames hinv hops₂.next (harity₂ op List.mem_cons_self)
      hs hmade (hknown₁.congr halike) hresidual
    refine ⟨hknown₂, fun f hf => ?_⟩
    rw [hout₂ f hf, halike.output, List.map_append]
    refine congrArg (· ++ [op.rename f]) (hout₁ f ⟨fun p hp => ?_, fun d hd => ?_⟩)
    · exact hf.allocated p (List.mem_append_left _ hp)
    · exact hf.others d (List.mem_append_left _ hd)

omit [Hashable Operand] in
/-- Objects of operations in normal form escape in the order in which they are allocated. -/
theorem NormalFrom.escapees_append (h : NormalFrom [] ops) :
    escapees ops ++ unescaped ops = objects ops := by
  induction ops using List.reverseRecOn with
  | nil => rfl
  | append_singleton ops op ih =>
    obtain ⟨hops, hresidual⟩ := normalFrom_append_singleton.1 h
    rw [objects, List.filter_append, List.map_append, ← objects, ← ih hops,
      escapees_append_singleton]
    by_cases hk : op.kind = .new
    · rw [leaving, if_pos (Or.inl hk), unescaped_append_singleton, remaining, if_pos hk,
        List.append_nil, List.filter_singleton, decide_eq_true hk, List.append_assoc]
      rfl
    · rw [hresidual.unescaped_eq_nil hk, hresidual.escape hk, List.filter_singleton,
        decide_eq_false hk]
      rfl

omit [Hashable Operand] in
theorem length_objects (ops : List Operation) :
    (objects ops).length = ops.countP (·.kind == .new) := by
  rw [objects, List.length_map, List.countP_eq_length_filter]
  rfl

end

namespace Trace

variable {t out : Trace} {tally : Tally} {first : OpId} {made : Allocations}

/-- Allocations that take unused ids in order have the ids for the allocations of a trace. -/
theorem renumber_of_mem (hobjects : made.map Prod.snd = objects t.ops)
    (hdistinct : (made.map Prod.snd).Nodup)
    (hids : made.map (·.1.toNat) = List.range' first.toNat made.length) :
    ∀ p ∈ made, t.renumber first p.2 = p.1 := by
  intro p hp
  obtain ⟨i, hi, rfl⟩ := List.getElem_of_mem hp
  have hindex : (objects t.ops).idxOf made[i].2 = i := by
    rw [← hobjects, ← List.getElem_map (f := Prod.snd) (h := by simpa using hi)]
    exact hdistinct.idxOf_getElem i _
  have hid : made[i].1.toNat = first.toNat + i := by
    have hget := List.getElem_of_eq hids (i := i) (by simpa using hi)
    simpa using hget
  have hmem : made[i].2 ∈ objects t.ops := hobjects ▸ List.mem_map_of_mem hp
  have hlt := made[i].1.toNat_lt
  rw [renumber, if_pos hmem, hindex, ← UInt32.toNat_inj, hid, UInt32.toNat_add, UInt32.toNat_ofNat']
  omega

theorem renumber_of_ne (ht : t.WellFormed) {d : Operation} (hd : d ∈ t.ops) (hk : d.kind ≠ .new) :
    t.renumber first d.id = d.id := by
  refine if_neg fun hmem => hk ?_
  obtain ⟨e, he, hid⟩ := List.mem_map.1 hmem
  obtain ⟨he, hnew⟩ := List.mem_filter.1 he
  rw [← List.inj_on_of_nodup_map ht.distinct he hd hid]
  exact of_decide_eq_true hnew

variable [Hashable Operand]

theorem onlyChecked_startOf (t : Trace) (ps : List Pass) (first : OpId) :
    OnlyChecked [] (t.startOf ps first) := by
  intro x hx
  cases x with
  | const => exact Or.inl rfl
  | input | op => cases hx

/-- A trace in normal form can be optimized, as long as ids do not run out. -/
theorem WellFormed.exists_release (ht : t.WellFormed) (hnormal : Normal t.ops)
    (hid : (optimizeWith Level.release.passes t).result ≠ .error .overflow) :
    ∃ r, (optimizeWith Level.release.passes t).result = .ok r := by
  cases hresult : (optimizeWith Level.release.passes t).result with
  | ok r => exact ⟨r, rfl⟩
  | error e =>
    rw [hresult] at hid
    refine absurd ?_ hid
    rcases optimizeWith_eq_error hresult with ⟨-, rfl⟩ | ⟨first, s', made, hfirst, hhalts⟩
    · rfl
    obtain ⟨before, op, after, s, made₁, made₂, hops, -, hfeeds, hhalts⟩ := hhalts
    have hcontinues := ht.continues fun op hop => Trace.lt_idBound hop
    have harity := ht.arity
    have hresidual := hnormal.residual
    have hids : ∀ d ∈ t.ops, d.id.toNat < first.toNat := fun d hd =>
      UInt32.lt_iff_toNat_lt.1 (Trace.lt_of_nextFreeId? hd hfirst)
    rw [hops] at hcontinues harity hresidual hids
    obtain ⟨harity₁, harity₂⟩ := List.forall_mem_append.1 harity
    obtain ⟨hbefore, hop, -⟩ := normalFrom_append.1 hresidual
    have htidy := hfeeds.tidy (t.tidy_startOf _ first) (List.forall_mem_append.1 hids).1
    obtain ⟨hknown, -⟩ := hfeeds.renames (invariant_start hfirst _) sinking_empty rfl
      (t.onlyChecked_startOf _ first) hcontinues.split.1 harity₁ hbefore
    rw [hhalts.eq_overflow (htidy.congr rfl (Nat.le_refl _))
      (harity₂ op List.mem_cons_self).supplied hknown hop]

/-- What stages count when as much comes out as went in, and as much is allocated as was. -/
theorem counters_of_feeds {s : Run}
    (h : Feeds Level.release.passes t.ops (t.startOf Level.release.passes first) s made)
    (hsize : s.output.size = t.ops.length) (hmade : made.length = t.count .new) :
    s.tally.folded = 0 ∧ s.tally.guardsElided = 0 ∧ s.tally.setfieldsAbsorbed = 0 ∧
      s.tally.virtualsCreated = t.count .new ∧ s.tally.virtualsForced = t.count .new ∧
      s.tally.opsIn = s.output.size := by
  have hbalanced := h.balanced
  have hopsIn : s.tally.opsIn = 0 + t.ops.length := hbalanced.opsIn
  have hforced : s.tally.virtualsForced = 0 + made.length := hbalanced.virtualsForced
  have hcreated : s.tally.virtualsCreated = 0 + t.count .new := h.virtualsCreated (by decide)
  have haccounted : s.accounted = 0 + t.ops.length + made.length := hbalanced.accounted
  rw [Run.accounted, Tally.settled] at haccounted
  omega

/-- **A trace in normal form is only renumbered**, and the stages count that they did nothing
else. -/
theorem WellFormed.release_eq (ht : t.WellFormed) (hnormal : Normal t.ops)
    (h : (optimizeWith Level.release.passes t).result = .ok (out, tally)) :
    ∃ first, t.nextFreeId? = some first ∧
      out = { t with ops := t.ops.map (Operation.rename (t.renumber first)) } ∧
      tally.folded = 0 ∧ tally.guardsElided = 0 ∧ tally.setfieldsAbsorbed = 0 ∧
      tally.virtualsCreated = t.count .new ∧ tally.virtualsForced = t.count .new ∧
      tally.opsIn = tally.opsOut := by
  obtain ⟨first, s, made, hfirst, hfeeds, rfl, rfl⟩ := optimizeWith_eq_ok h
  have hstart : Invariant t.idBound [] [] (t.startOf Level.release.passes first) :=
    invariant_start hfirst _
  have hcontinues := ht.continues fun op hop => Trace.lt_idBound hop
  obtain ⟨hsnd, -, -⟩ := hfeeds.sinks hstart hcontinues ht.arity sinking_empty
  -- all objects escape, in the order in which they are allocated
  have hobjects : made.map Prod.snd = objects t.ops := by
    rw [← hnormal.residual.escapees_append, hnormal.escaped, List.append_nil]
    exact hsnd
  have hdistinct : (made.map Prod.snd).Nodup := hsnd ▸ nodup_escapees ht.distinct
  have hrenames : Renames (t.renumber first) made t.ops :=
    ⟨renumber_of_mem hobjects hdistinct hfeeds.numbered.ids,
      fun d hd hk => renumber_of_ne ht hd hk⟩
  obtain ⟨-, hout⟩ := hfeeds.renames hstart sinking_empty rfl (t.onlyChecked_startOf _ first)
    hcontinues ht.arity hnormal.residual
  have hout : s.output.toList = t.ops.map (Operation.rename (t.renumber first)) := by
    rw [← hout _ hrenames, hnormal.escaped]
    exact (List.append_nil _).symm
  have hsize : s.output.size = t.ops.length := by
    rw [← Array.length_toList, hout, List.length_map]
  have hmade : made.length = t.count .new := by
    rw [Trace.count, ← length_objects, ← hobjects, List.length_map]
  rw [hout]
  exact ⟨first, hfirst, rfl, counters_of_feeds hfeeds hsize hmade⟩

end Trace

/-- **Optimizing once is enough**: a second optimization of what the first one gave succeeds, as
long as ids do not run out, and gives the same operations, with the unused ids for the allocations,
in order.  It folds, elides and absorbs nothing, and makes every allocation that it puts off. -/
theorem optimizeWith_release_idempotent [Hashable Operand] (t out : Trace) (tally : Tally)
    (ht : t.WellFormed) (h : (optimizeWith Level.release.passes t).result = .ok (out, tally))
    (hid : (optimizeWith Level.release.passes out).result ≠ .error .overflow) :
    ∃ first tally', out.nextFreeId? = some first ∧
      (optimizeWith Level.release.passes out).result =
        .ok ({ out with ops := out.ops.map (Operation.rename (out.renumber first)) }, tally') ∧
      tally'.folded = 0 ∧ tally'.guardsElided = 0 ∧ tally'.setfieldsAbsorbed = 0 ∧
      tally'.virtualsCreated = out.count .new ∧ tally'.virtualsForced = out.count .new ∧
      tally'.opsIn = tally'.opsOut := by
  obtain ⟨hwellFormed, hnormal⟩ := ht.normal h
  obtain ⟨⟨again, tally'⟩, hagain⟩ := hwellFormed.exists_release hnormal hid
  obtain ⟨first, hfirst, rfl, hcounters⟩ := hwellFormed.release_eq hnormal hagain
  exact ⟨first, tally', hfirst, hagain, hcounters⟩

/-! ### A trace that is optimized twice -/

/-- Two objects: one is checked by a guard, which makes a sum known, and both escape at calls. -/
def layered : Trace :=
  ⟨1, [⟨0, .new, [], some .ref⟩,
    ⟨1, .new, [], some .ref⟩,
    ⟨2, .setField, [.op 0, .op 1], none⟩,
    ⟨3, .call, [.op 1, .input 0, .op 0], some .ref⟩,
    ⟨4, .guardTrue, [.op 0], none⟩,
    ⟨5, .intAdd, [.op 0, .const 2], some .int⟩,
    ⟨6, .intLt, [.op 5, .input 0], some .int⟩,
    ⟨7, .guardFalse, [.op 6], none⟩,
    ⟨8, .guardFalse, [.op 6], none⟩,
    ⟨9, .new, [], some .ref⟩,
    ⟨10, .setField, [.op 1, .op 9], none⟩,
    ⟨11, .finish, [.op 9, .op 6], none⟩]⟩

/-- What is left of it. -/
def layeredOutput : Trace :=
  ⟨1, [⟨12, .new, [], some .ref⟩,
    ⟨13, .new, [], some .ref⟩,
    ⟨3, .call, [.op 12, .input 0, .op 13], some .ref⟩,
    ⟨4, .guardTrue, [.op 13], none⟩,
    ⟨6, .intLt, [.const 3, .input 0], some .int⟩,
    ⟨7, .guardFalse, [.op 6], none⟩,
    ⟨14, .new, [], some .ref⟩,
    ⟨10, .setField, [.op 12, .op 14], none⟩,
    ⟨11, .finish, [.op 14, .const 0], none⟩]⟩

/-- The counters of that optimization. -/
def layeredTally : Tally where
  opsIn := 12
  opsOut := 9
  folded := 1
  guardsElided := 1
  guardsKept := 2
  virtualsCreated := 3
  virtualsForced := 3
  setfieldsAbsorbed := 1
  stageCounts := [("constant_fold", 12), ("guard_propagation", 11), ("virtualize", 10)]

/-- The allocations are 15, 16 and 17 after the second optimization. -/
theorem layered_idempotent :
    layered.WellFormed ∧
      (optimizeWith Level.release.passes layered).result = .ok (layeredOutput, layeredTally) ∧
      (optimizeWith Level.release.passes layeredOutput).result ≠ .error .overflow ∧
      ∃ tally, layeredOutput.nextFreeId? = some 15 ∧
        (optimizeWith Level.release.passes layeredOutput).result =
          .ok (⟨1, [⟨15, .new, [], some .ref⟩,
            ⟨16, .new, [], some .ref⟩,
            ⟨3, .call, [.op 15, .input 0, .op 16], some .ref⟩,
            ⟨4, .guardTrue, [.op 16], none⟩,
            ⟨6, .intLt, [.const 3, .input 0], some .int⟩,
            ⟨7, .guardFalse, [.op 6], none⟩,
            ⟨17, .new, [], some .ref⟩,
            ⟨10, .setField, [.op 15, .op 17], none⟩,
            ⟨11, .finish, [.op 17, .const 0], none⟩]⟩, tally) ∧
        tally.folded = 0 ∧ tally.guardsElided = 0 ∧ tally.setfieldsAbsorbed = 0 ∧
        tally.virtualsCreated = 3 ∧ tally.virtualsForced = 3 ∧ tally.opsIn = tally.opsOut := by
  have hwellFormed : layered.WellFormed := by decide
  have hresult : (optimizeWith Level.release.passes layered).result =
      .ok (layeredOutput, layeredTally) := by
    decide +kernel
  have hid : (optimizeWith Level.release.passes layeredOutput).result ≠ .error .overflow := by
    decide +kernel
  obtain ⟨first, tally, hfirst, hagain, hcounters⟩ := optimizeWith_release_idempotent layered
    layeredOutput layeredTally hwellFormed hresult hid
  obtain rfl : 15 = first := Option.some.inj hfirst
  exact ⟨hwellFormed, hresult, hid, tally, hfirst, hagain, hcounters⟩

end TraceOpt
