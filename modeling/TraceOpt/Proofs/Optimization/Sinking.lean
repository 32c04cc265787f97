import TraceOpt.Proofs.Optimization.Output
import TraceOpt.Proofs.Trace.Escape

/-!
# Allocations are made where objects escape

With all built-in stages, an object is put off as long as it is on the list of the escape scan and
allocated at the operation where it leaves the list.  What the stages know about objects is thus a
function of the scan, as long as no guard has checked them: then they are taken for integers.

* `Sinking`: what is known about objects after some operations, in terms of the scan.
* `Treated`: what an operation leaves in the output, in terms of the scan.
* `Passage.sinks`, `Feeds.sinks`: one operation, and a whole trace.
-/

namespace TraceOpt

/-- An operand that is checked by a guard. -/
def Guarded (ops : List Operation) (x : Operand) : Prop :=
  ∃ g ∈ ops, g.kind ∈ Kind.guards ∧ x ∈ g.args

instance (ops : List Operation) : DecidablePred (Guarded ops) := fun x =>
  inferInstanceAs (Decidable (∃ g ∈ ops, g.kind ∈ Kind.guards ∧ x ∈ g.args))

/-- What is known about objects after the operations seen, of which those of a list have not
escaped and the others have been allocated. -/
structure Sinking [Hashable Operand] (seen : List Operation) (live : List OpId)
    (made : Allocations) (b : Bindings) : Prop where
  /-- The objects are those of the list, each found by its own operand and no other. -/
  object : ∀ x o, (b.find? x).bind Value.origin? = some o ↔ x = .op o ∧ o ∈ live
  /-- An allocated object is its allocation, unless a guard has checked it. -/
  allocated : ∀ p ∈ made, b.find? (.op p.2) = some (.operand (.op p.1)) ∨ Guarded seen (.op p.2)
  /-- Only allocated objects are other operands. -/
  renamed : ∀ x y, b.find? x = some (.operand y) → ∃ p ∈ made, x = .op p.2 ∧ y = .op p.1

/-- What stands in an operation of the output for an argument. -/
structure Renamed (seen : List Operation) (made : Allocations) (x y : Operand) : Prop where
  /-- The allocation, for an object that is allocated. -/
  of_object : ∀ p ∈ made, ¬ Guarded seen (.op p.2) → x = .op p.2 → y = .op p.1
  /-- An allocation for nothing but its object. -/
  of_allocation : ∀ p ∈ made, y = .op p.1 → ∃ q ∈ made, q.1 = p.1 ∧ x = .op q.2

/-- What an operation leaves in the output, with the allocations that it makes, when the objects of
a list have not escaped before it. -/
inductive Treated (seen : List Operation) (live : List OpId) (made : Allocations)
    (op : Operation) : Allocations → List Operation → Prop
  /-- Nothing, if no object escapes, and none that is allocated is needed. -/
  | dropped (hleaving : leaving live op = [])
      (hargs : ∀ p ∈ made, ¬ Guarded seen (.op p.2) → .op p.2 ∈ op.args → op.WritesTo live) :
      Treated seen live made op [] []
  /-- Allocations of the objects that escape, and then itself with these in place of the objects. -/
  | kept {made' : Allocations} {args : List Operand} (hmade : made'.map Prod.snd = leaving live op)
      (hk : op.kind ≠ .new) (hwrites : ¬ op.WritesTo live)
      (hargs : List.Forall₂ (Renamed seen (made ++ made')) op.args args) :
      Treated seen live made op made' (made'.map TraceOpt.allocated ++ [{ op with args }])

section

variable {base : Nat} {seen seen' : List Operation} {live live' : List OpId}
  {made made' : Allocations} {b b' : Bindings} {s s' : Run} {op : Operation} {x y : Operand}
  {v : Value} {o : OpId}

theorem Guarded.mono (h : Guarded seen x) (hseen : seen ⊆ seen') : Guarded seen' x := by
  obtain ⟨g, hg, h⟩ := h
  exact ⟨g, hseen hg, h⟩

theorem Value.origin?_of_isConstant (h : v.isConstant = true) : v.origin? = none := by
  cases v with
  | constant => rfl
  | operand | blank | written => cases h

theorem Kind.ne_new_of_mem_guards {k : Kind} (h : k ∈ guards) : k ≠ new := by
  rintro rfl
  exact absurd h (by decide)

theorem Kind.ne_new_of_mem_arithmetic {k : Kind} (h : k ∈ arithmetic) : k ≠ new := by
  rintro rfl
  exact absurd h (by decide)

theorem ConstantFolding.isConstant_of_result? {k : Kind} {vs : List Value} {n : Int64}
    (h : result? k vs = some n) : ∀ v ∈ vs, v.isConstant = true := by
  unfold result? at h
  split at h
  · simp [Value.isConstant]
  · cases h

theorem Operation.head?_of_arg (h : op.arg 0 = .ok x) : op.args.head? = some x := by
  rw [List.head?_eq_getElem?]
  exact arg_eq_ok_iff.1 h

namespace Treated

variable {outs : List Operation}

theorem map_snd (h : Treated seen live made op made' outs) :
    made'.map Prod.snd = leaving live op := by
  cases h with
  | dropped hleaving => exact hleaving.symm
  | kept hmade => exact hmade

theorem filter_new (h : Treated seen live made op made' outs) :
    outs.filter (·.kind = .new) = made'.map allocated := by
  cases h with
  | dropped => rfl
  | kept _ hk _ _ => exact filter_new_append hk

end Treated

variable [Hashable Operand]

namespace Sinking

theorem mono (h : Sinking seen live made b) (hseen : seen ⊆ seen') : Sinking seen' live made b :=
  ⟨h.object, fun p hp => (h.allocated p hp).imp_right fun hg => hg.mono hseen, h.renamed⟩

theorem origin?_eq_some_iff (h : Sinking seen live made s.bindings) :
    (s.resolve x).origin? = some o ↔ x = .op o ∧ o ∈ live := by
  rw [← h.object]
  constructor
  · intro hx
    rw [Run.find?_of_origin? hx, Option.bind_some, hx]
  · intro hx
    obtain ⟨rfl, -⟩ := (h.object x o).1 hx
    rcases s.resolve_cases (.op o) with ⟨n, hn, -⟩ | hbound | ⟨hnone, -⟩
    · cases hn
    · rwa [hbound] at hx
    · rw [hnone] at hx
      cases hx

theorem not_mem_of_isConstant (h : Sinking seen live made s.bindings)
    (hx : (s.resolve (.op o)).isConstant = true) : o ∉ live := by
  intro ho
  have horigin := h.origin?_eq_some_iff.2 ⟨rfl, ho⟩
  rw [Value.origin?_of_isConstant hx] at horigin
  cases horigin

/-- An operand is bound.  What the list and the allocations become depends on what the operand has
been and on what it is now. -/
theorem bind (h : Sinking seen live made b)
    (hb : ∀ y, b'.find? y = if y = x then some v else b.find? y) (hmade : made ⊆ made')
    (hx : (∀ y, b.find? x ≠ some (.operand y)) ∨ Guarded seen x)
    (hobject : ∀ o, v.origin? = some o ↔ x = .op o ∧ o ∈ live')
    (hothers : ∀ o, x ≠ .op o → (o ∈ live' ↔ o ∈ live))
    (hnew : ∀ p ∈ made', p ∈ made ∨ x = .op p.2 ∧ v = .operand (.op p.1))
    (hrenamed : ∀ y, v = .operand y → ∃ p ∈ made', x = .op p.2 ∧ y = .op p.1) :
    Sinking seen live' made' b' := by
  constructor
  case object =>
    intro y o
    rw [hb]
    split_ifs with hy
    · rw [hy]
      exact hobject o
    · rw [h.object]
      refine and_congr_right fun hyo => (hothers o ?_).symm
      rintro rfl
      exact hy hyo
  case allocated =>
    intro p hp
    rw [hb]
    split_ifs with hpx
    · rcases hnew p hp with hp | ⟨-, rfl⟩
      · -- an allocation is given up only for what a guard has told
        right
        rcases hx with hx | hx
        · rw [← hpx] at hx
          exact (h.allocated p hp).resolve_left (hx _)
        · rwa [hpx]
      · exact Or.inl rfl
    · rcases hnew p hp with hp | ⟨rfl, -⟩
      · exact h.allocated p hp
      · exact absurd rfl hpx
  case renamed =>
    intro y z hy
    rw [hb] at hy
    split_ifs at hy with hyx
    · rw [hyx]
      exact hrenamed z (Option.some.inj hy)
    · obtain ⟨p, hp, hyz⟩ := h.renamed y z hy
      exact ⟨p, hmade hp, hyz⟩

theorem find?_ne_operand (h : Sinking seen live made b) (ho : o ∈ live) (y : Operand) :
    b.find? (.op o) ≠ some (.operand y) := by
  intro hy
  have hobject := (h.object (.op o) o).2 ⟨rfl, ho⟩
  rw [hy] at hobject
  cases hobject

/-- An operand that is not on the list becomes an integer.  If it was an allocation, a guard has
told so. -/
theorem settle (h : Sinking seen live made s.bindings) (hs : s.bindings.Valid)
    (hx : s.bindings.find? x = none ∨ Guarded seen x) (hlive : ∀ o, x = .op o → o ∉ live)
    (n : Int64) : Sinking seen live made (s.bind x (.constant n)).bindings := by
  have hb := Run.find?_bind_value (x := x) (v := .constant n) hs fun y hy => nomatch hy
  refine h.bind hb (List.Subset.refl _) (hx.imp_left fun hx y hy => ?_)
    (fun o => iff_of_false (fun ho => (nomatch ho)) fun ho => hlive o ho.1 ho.2)
    (fun _ _ => Iff.rfl) (fun p hp => Or.inl hp) (fun y hy => (nomatch hy))
  rw [hx] at hy
  cases hy

/-- A new object is put on the list. -/
theorem postpone (h : Sinking seen live made s.bindings) (hs : s.bindings.Valid)
    (hx : s.bindings.find? (.op o) = none) :
    Sinking seen (live ++ [o]) made (s.bind (.op o) (.blank o)).bindings := by
  have hb := Run.find?_bind_value (x := .op o) (v := .blank o) hs fun y hy => nomatch hy
  refine h.bind hb (List.Subset.refl _) (Or.inl fun y hy => ?_)
    (fun i => ?_) (fun i hi => ?_) (fun p hp => Or.inl hp) (fun y hy => (nomatch hy))
  · rw [hx] at hy
    cases hy
  · change some o = some i ↔ _
    rw [Option.some.injEq, Operand.op.injEq, List.mem_append, List.mem_singleton]
    exact ⟨fun hi => ⟨hi, Or.inr hi.symm⟩, And.left⟩
  · rw [List.mem_append, List.mem_singleton, or_iff_left]
    rintro rfl
    exact hi rfl

/-- A write is recorded on an object of the list. -/
theorem record (h : Sinking seen live made s.bindings) (hs : s.bindings.Valid) (ho : o ∈ live)
    (stored : Value) :
    Sinking seen live made (s.bindObject o (.op o) (.written o stored)).bindings := by
  have hb : ∀ y, (s.bindObject o (.op o) (.written o stored)).bindings.find? y =
      if y = .op o then some (.written o stored) else s.bindings.find? y := by
    intro y
    rw [Run.find?_bindObject (v := .written o stored) hs fun z hz => nomatch hz]
    exact if_congr or_self_iff rfl rfl
  refine h.bind hb (List.Subset.refl _) (Or.inl (h.find?_ne_operand ho))
    (fun i => ?_) (fun _ _ => Iff.rfl) (fun p hp => Or.inl hp) (fun y hy => (nomatch hy))
  change some o = some i ↔ _
  rw [Option.some.injEq, Operand.op.injEq]
  exact ⟨fun hi => ⟨hi, hi ▸ ho⟩, And.left⟩

/-- An object of the list is allocated. -/
theorem force (h : Sinking seen live made s.bindings) (hinv : Invariant base seen made s)
    (ho : o ∈ live) : Sinking seen (live.filter fun i => !i == o) (made ++ [(s.nextId, o)])
      (s.force [] (.op o) o).bindings := by
  have horigin := h.origin?_eq_some_iff.2 ⟨rfl, ho⟩
  have hne : o ≠ s.nextId := fun hid =>
    hinv.ne_nextId_of_known (hinv.object horigin).1 (congrArg Operand.op hid)
  have hb : ∀ y, (s.force [] (.op o) o).bindings.find? y =
      if y = .op o then some (.operand (.op s.nextId)) else s.bindings.find? y := by
    intro y
    rw [Run.find?_force List.not_mem_nil hinv.valid hinv.find?_nextId hne]
    exact if_congr or_self_iff rfl rfl
  refine h.bind hb (List.subset_append_left _ _)
    (Or.inl (h.find?_ne_operand ho)) (fun i => iff_of_false (fun hi => (nomatch hi)) ?_)
    (fun i hi => ?_) (fun p hp => ?_)
    (fun y hy => ⟨_, List.mem_append_right _ List.mem_cons_self, rfl, (Value.operand.inj hy).symm⟩)
  · rintro ⟨hi, hmem⟩
    rw [← Operand.op.inj hi, List.mem_filter] at hmem
    simp at hmem
  · have hio : i ≠ o := fun hio => hi (congrArg Operand.op hio.symm)
    simp [hio]
  · refine (List.mem_append.1 hp).imp_right fun hp => ?_
    rw [List.mem_singleton.1 hp]
    exact ⟨rfl, rfl⟩

theorem renamed_of_place (h : Sinking seen live made s.bindings) (hinv : Invariant base seen made s)
    (hx : x.DefinedIn seen) (hy : s.place x = .ok y) : Renamed seen made x y := by
  constructor
  case of_object =>
    rintro p hp hguard rfl
    have hresolve := Run.resolve_of_find? ((h.allocated p hp).resolve_right hguard)
    rw [Run.place, hresolve] at hy
    cases hy
    rfl
  case of_allocation =>
    rintro p hp rfl
    have hresolve : s.resolve x = .operand (.op p.1) := by
      unfold Run.place at hy
      cases hv : s.resolve x <;> rw [hv] at hy <;> cases hy
      rfl
    rcases s.resolve_cases x with ⟨n, -, hn⟩ | hbound | ⟨-, hself⟩
    · rw [hn] at hresolve
      cases hresolve
    · rw [hresolve] at hbound
      obtain ⟨q, hq, hxq, hpq⟩ := h.renamed x _ hbound
      exact ⟨q, hq, (Operand.op.inj hpq).symm, hxq⟩
    · -- the trace does not use ids of allocations
      obtain rfl := Value.operand.inj (hself.symm.trans hresolve)
      exact absurd hx (hinv.not_definedIn_of_mem_made hp)

/-- An operation on nothing but integers needs no object. -/
theorem dropped (h : Sinking seen live made s.bindings)
    (hargs : ∀ x ∈ op.args, (s.resolve x).isConstant = true) :
    Treated seen live made op [] [] := by
  refine .dropped (List.eq_nil_iff_forall_not_mem.2 fun o ho => ?_) fun p hp hguard harg => ?_
  · obtain ⟨-, -, hlive, harg⟩ := mem_leaving_iff.1 ho
    exact h.not_mem_of_isConstant (hargs _ harg) hlive
  · have hresolve := Run.resolve_of_find? ((h.allocated p hp).resolve_right hguard)
    have hconstant := hargs _ harg
    rw [hresolve] at hconstant
    cases hconstant

end Sinking

/-! ### One operation -/

/-- **Forcing operands allocates the objects of the list among them**, in the order of their first
occurrence. -/
theorem Forces.sinks {xs : List Operand} (h : Forces [] xs s s' made')
    (hinv : Invariant base seen made s) (hs : Sinking seen live made s.bindings) :
    made'.map Prod.snd = (xs.filterMap (Operand.objectIn? live)).eraseDups ∧
      Sinking seen (live.filter (· ∉ made'.map Prod.snd)) (made ++ made') s'.bindings := by
  induction h generalizing live made with
  | nil =>
    refine ⟨rfl, ?_⟩
    rw [List.append_nil, List.filter_eq_self.2 fun _ _ => by simp]
    exact hs
  | @skip x xs s s' made' hx h ih =>
    have hnone : x.objectIn? live = none := by
      refine Option.eq_none_iff_forall_ne_some.2 fun o ho => ?_
      rw [hs.origin?_eq_some_iff.2 (Operand.objectIn?_eq_some_iff.1 ho)] at hx
      cases hx
    rw [List.filterMap_cons_none hnone]
    exact ih hinv hs
  | @force x xs o s s' made' hx hid h ih =>
    obtain ⟨rfl, ho⟩ := hs.origin?_eq_some_iff.1 hx
    obtain ⟨hmade, hs'⟩ := ih (hinv.force hx hid []) (hs.force hinv ho)
    refine ⟨?_, ?_⟩
    · rw [List.filterMap_cons_some (Operand.objectIn?_eq_some_iff.2 ⟨rfl, ho⟩),
        List.eraseDups_cons, ← filterMap_objectIn?_filter, List.map_cons, hmade]
    · rw [List.map_cons, filter_not_mem_cons, List.append_cons]
      exact hs'

/-- What one operation does: it is treated as the scan says, and what is known about objects
afterwards is what the scan says. -/
def Sinks (seen : List Operation) (live : List OpId) (made : Allocations) (op : Operation)
    (made' : Allocations) (s s' : Run) : Prop :=
  ∃ outs, s'.output.toList = s.output.toList ++ outs ∧ Treated seen live made op made' outs ∧
    Sinking (seen ++ [op]) (remaining live op) (made ++ made') s'.bindings

/-- The stage that puts off allocations, with no stage after it. -/
theorem Passage.sinks_allocationSinking (h : Passage op [.allocationSinking] s s' made')
    (hinv : Invariant base seen made s) (hop : Next base seen op) (harity : op.HasArity)
    (hs : Sinking seen live made s.bindings) : Sinks seen live made op made' s s' := by
  have hs' := hs.mono (List.subset_append_left seen [op])
  cases h with
  | postpone hk =>
    have hargs : op.args = [] := List.length_eq_zero_iff.1 (harity 0 (by rw [hk]; rfl))
    have hleaving : leaving live op = [] := if_pos (Or.inl hk)
    refine ⟨[], (List.append_nil _).symm, .dropped hleaving ?_, ?_⟩
    · rw [hargs]
      exact fun _ _ _ hp => nomatch hp
    · rw [remaining, if_pos hk, List.append_nil]
      refine hs'.postpone ?_ ?_
      · exact hinv.valid
      · exact hinv.find?_result hop
  | @absorb _ x y o _ hk harg hx harg' =>
    obtain ⟨rfl, ho⟩ := hs.origin?_eq_some_iff.1 hx
    have hwrites : op.WritesTo live := ⟨hk, o, ho, Operation.head?_of_arg harg⟩
    have hleaving : leaving live op = [] := if_pos (Or.inr hwrites)
    refine ⟨[], ?_, .dropped hleaving fun _ _ _ _ => hwrites, ?_⟩
    · refine (congrArg Array.toList (Run.output_bindObject ..)).trans ?_
      exact (List.append_nil _).symm
    · rw [remaining_eq_self (by rw [hk]; decide) hleaving, List.append_nil]
      have hnoted : Sinking (seen ++ [op]) live made ((s.enter .allocationSinking op).note
          (.absorbed op (.written o (s.resolve y)))).bindings := hs'
      exact hnoted.record hinv.valid ho _
  | @force _ _ s₁ _ made₁ made₂ hk hset hargs h =>
    cases h with
    | @emit args _ hplaced =>
      have hwrites : ¬ op.WritesTo live := by
        rintro ⟨hsetField, o, ho, hhead⟩
        obtain ⟨x, harg, hx⟩ := hset hsetField
        obtain rfl := Option.some.inj ((Operation.head?_of_arg harg).symm.trans hhead)
        rw [hs.origin?_eq_some_iff.2 ⟨rfl, ho⟩] at hx
        cases hx
      have hinv' : Invariant base seen made (s.enter .allocationSinking op) :=
        hinv.congr rfl rfl rfl
      have hinv₁ := hargs.invariant hinv'
      obtain ⟨hmade, hs₁⟩ := hargs.sinks hinv' hs
      have hleaving : made₁.map Prod.snd = leaving live op := by
        rw [hmade, leaving, if_neg (not_or.2 ⟨hk, hwrites⟩)]
      rw [List.append_nil]
      refine ⟨made₁.map allocated ++ [{ op with args }], ?_, .kept hleaving hk hwrites ?_, ?_⟩
      · rw [← List.append_assoc]
        exact Array.toList_push.trans (congrArg (· ++ [_]) hargs.output_nil)
      · have hrenamed := (List.forall₂_and_left op.args args).2
          ⟨hop.args, Run.placed_of_mapM hplaced⟩
        exact hrenamed.imp fun x y hxy => hs₁.renamed_of_place hinv₁ hxy.1 hxy.2
      · rw [remaining_of_ne hk, ← hleaving]
        exact hs₁.mono (List.subset_append_left _ _)

theorem Passage.sinks_guardPropagation
    (h : Passage op [.guardPropagation, .allocationSinking] s s' made')
    (hinv : Invariant base seen made s) (hop : Next base seen op) (harity : op.HasArity)
    (hs : Sinking seen live made s.bindings) : Sinks seen live made op made' s s' := by
  cases h with
  | @elide _ x n _ hk harg hx hn =>
    have hdropped : Treated seen live made op [] [] := by
      refine hs.dropped fun y hy => ?_
      rw [harity.args_eq hk harg, List.mem_singleton] at hy
      rw [hy, hx]
      rfl
    refine ⟨[], (List.append_nil _).symm, hdropped, ?_⟩
    rw [remaining_eq_self (Kind.ne_new_of_mem_guards hk) hdropped.map_snd.symm, List.append_nil]
    exact hs.mono (List.subset_append_left _ _)
  | @learn _ x _ s₁ _ hk harg hx h =>
    have hmem := Operation.mem_args_of_arg harg
    have hnew := Kind.ne_new_of_mem_guards hk
    obtain ⟨outs, hout, htreated, hs₁⟩ :=
      h.sinks_allocationSinking (hinv.congr rfl rfl rfl) hop harity hs
    refine ⟨outs, hout, htreated, hs₁.settle (h.valid hinv.valid) (Or.inr ?_) ?_ _⟩
    · exact ⟨op, List.mem_append_right _ List.mem_cons_self, hk, hmem⟩
    · -- the argument has escaped at the guard, if it was on the list
      rintro o rfl ho
      rw [remaining_of_ne hnew, List.mem_filter, decide_eq_true_eq] at ho
      refine ho.2 (mem_leaving_iff.2 ⟨hnew, fun hwrites => ?_, ho.1, hmem⟩)
      rw [hwrites.1] at hk
      revert hk
      decide
  | unguarded hk h => exact h.sinks_allocationSinking (hinv.congr rfl rfl rfl) hop harity hs

/-- **One operation is treated as the scan says.** -/
theorem Passage.sinks (h : Passage op Level.release.passes s s' made')
    (hinv : Invariant base seen made s) (hop : Next base seen op) (harity : op.HasArity)
    (hs : Sinking seen live made s.bindings) : Sinks seen live made op made' s s' := by
  cases h with
  | @fold _ n _ hk hn =>
    have hdropped : Treated seen live made op [] [] :=
      hs.dropped fun x hx => ConstantFolding.isConstant_of_result? hn _ (List.mem_map_of_mem hx)
    refine ⟨[], (List.append_nil _).symm, hdropped, ?_⟩
    have hresult := hinv.find?_result hop
    rw [remaining_eq_self (Kind.ne_new_of_mem_arithmetic hk) hdropped.map_snd.symm,
      List.append_nil]
    refine (hs.mono (List.subset_append_left _ _)).settle ?_ (Or.inl hresult) ?_ n
    · exact hinv.valid
    · intro o ho hlive
      have hobject := (hs.object (.op o) o).2 ⟨rfl, hlive⟩
      rw [← ho, hresult] at hobject
      cases hobject
  | unfolded hk h => exact h.sinks_guardPropagation (hinv.congr rfl rfl rfl) hop harity hs

/-! ### Whole traces -/

/-- Nothing is known about objects when nothing is known. -/
theorem sinking_empty : Sinking [] [] [] (.empty : Bindings) :=
  ⟨fun _ _ => iff_of_false (fun h => nomatch h) fun h => (nomatch h.2), fun _ h => (nomatch h),
    fun _ _ h => (nomatch h)⟩

/-- **A whole trace is treated as the scan says**: the allocations in the output are those of the
objects that escape. -/
theorem Feeds.sinks {ops : List Operation} (h : Feeds Level.release.passes ops s s' made')
    (hinv : Invariant base seen made s) (hops : Continues base seen ops)
    (harity : ∀ op ∈ ops, op.HasArity) (hs : Sinking seen live made s.bindings) :
    made'.map Prod.snd = escapeesFrom live ops ∧
      (∃ outs, s'.output.toList = s.output.toList ++ outs ∧
        outs.filter (·.kind = .new) = made'.map allocated) ∧
      Sinking (seen ++ ops) (ops.foldl remaining live) (made ++ made') s'.bindings := by
  induction h generalizing seen live made with
  | nil =>
    rw [List.append_nil, List.append_nil]
    exact ⟨rfl, ⟨[], (List.append_nil _).symm, rfl⟩, hs⟩
  | @cons op ops s s₁ s' made₁ made₂ hop _ ih =>
    obtain ⟨hhead, htail⟩ := List.forall_mem_cons.1 harity
    have hinv' : Invariant base seen made (s.count fun t => { t with opsIn := t.opsIn + 1 }) :=
      hinv.congr rfl rfl rfl
    obtain ⟨outs₁, hout₁, htreated, hs₁⟩ := hop.sinks hinv' hops.next hhead hs
    obtain ⟨hsnd, ⟨outs₂, hout₂, hnew⟩, hs₂⟩ :=
      ih (hop.invariant hinv' hops.next) hops.rest htail hs₁
    refine ⟨?_, ⟨outs₁ ++ outs₂, ?_, ?_⟩, ?_⟩
    · rw [List.map_append, htreated.map_snd, hsnd, escapeesFrom]
    · rw [hout₂, hout₁, List.append_assoc]
      rfl
    · rw [List.filter_append, htreated.filter_new, hnew, List.map_append]
    · rw [List.append_cons, ← List.append_assoc]
      exact hs₂

end

end TraceOpt
