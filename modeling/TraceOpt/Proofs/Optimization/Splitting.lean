import TraceOpt.Proofs.Optimization.Aliasing
import TraceOpt.Trace.Hash

/-!
# Objects that are split

When several operands stand for an object not yet allocated, each of them has a value of its own.  A
write to the object, or its allocation, reaches the operand by which it was asked for and the result
of the `new` operation, but no third operand.  After that the object is split: some of its operands
do not know what happened to it, and another allocation may be made for it.

* `Unsplit`: one allocation for each object, and one value for all operands that stand for it.
* `Operation.Careful`: an operation that reaches no object for which a third operand stands.
* `Served.whole`, `Served.careful`: a request keeps objects whole if it is careful, and only then.
* `performAll_unsplit_iff`: objects are unsplit all along a session if all operations are careful,
  and only then.
* `allCareful_iff`: whether all operations are careful can be checked request by request.
-/

namespace TraceOpt

section AnyHash

variable [Hashable Operand]

/-- There is one of each object: at most one allocation has been made for it, and all operands that
stand for it have the same value, which is the object with the same write or that allocation. -/
structure Unsplit (objects : Operand → Option OpId) (made : Allocations) (s : Run) : Prop where
  /-- No two allocations are made for an object. -/
  once : (made.map Prod.snd).Nodup
  /-- Operands that stand for an object have the same value. -/
  same : ∀ o x y, objects x = some o → objects y = some o → s.resolve x = s.resolve y ∧
    ((s.resolve x).origin? = some o ∨ ∃ a, (a, o) ∈ made ∧ s.resolve x = .operand (.op a))

/-- An object is reached through an operand, and no third one stands for it. -/
def Lone (objects : Operand → Option OpId) (o : OpId) (x : Operand) : Prop :=
  ∀ z, objects z = some o → z = x ∨ z = .op o

/-- The operation writes to an object not yet allocated. -/
def Operation.Records (s : Run) (op : Operation) (x : Operand) (o : OpId) : Prop :=
  op.kind = .setField ∧ op.arg 0 = .ok x ∧ (s.resolve x).origin? = some o

/-- The operation reaches no object for which a third operand stands. -/
structure Operation.Careful (objects : Operand → Option OpId) (s : Run) (op : Operation) :
    Prop where
  /-- No third operand stands for an object written to, unless the same was written before. -/
  write : ∀ x y o, op.Records s x o → op.arg 1 = .ok y →
    Lone objects o x ∨ s.resolve x = .written o (s.resolve y)
  /-- No operand stands for an object that is allocated but its first one among the arguments and
  the result of its `new` operation. -/
  force : op.kind ≠ .new → (∀ x o, ¬ op.Records s x o) →
    ∀ o x, op.args.find? (fun x => (s.resolve x).origin? = some o) = some x → Lone objects o x

/-- Only operations have to be careful. -/
def Request.Careful (objects : Operand → Option OpId) (s : Run) : Request → Prop
  | forward op => op.Careful objects s
  | equate _ _ => True

/-! ### Whole objects -/

/-- There has been one of each object all along, so that what has been allocated is known to be. -/
structure Whole (objects : Operand → Option OpId) (made : Allocations) (s : Run) : Prop where
  /-- No two allocations are made for an object. -/
  once : (made.map Prod.snd).Nodup
  /-- Operands that stand for an object have the same value. -/
  same : ∀ o x y, objects x = some o → objects y = some o → s.resolve x = s.resolve y
  /-- An object that has been allocated is its allocation. -/
  settled : ∀ p ∈ made, s.resolve (.op p.2) = .operand (.op p.1)

section

variable {first : OpId} {named : List Operand} {objects : Operand → Option OpId}
  {made made' : Allocations} {s s' : Run} {x y z : Operand} {o i : OpId} {v : Value}

namespace Whole

theorem unsplit (hw : Whole objects made s) (ht : Tracked first named objects made s) :
    Unsplit objects made s :=
  ⟨hw.once, fun o x y hx hy => ⟨hw.same o x y hx hy, ht.value x o hx⟩⟩

theorem congr (hw : Whole objects made s) (hbindings : s'.bindings = s.bindings) :
    Whole objects made s' := by
  have hresolve : ∀ y, s'.resolve y = s.resolve y := fun y =>
    Run.resolve_congr (by rw [hbindings])
  refine ⟨hw.once, fun o x y hx hy => ?_, fun p hp => ?_⟩
  · rw [hresolve, hresolve]
    exact hw.same o x y hx hy
  · rw [hresolve]
    exact hw.settled p hp

theorem ne_of_mem (hw : Whole objects made s) (ht : Tracked first named objects made s)
    (hx : (s.resolve x).origin? = some o) {p : OpId × OpId} (hp : p ∈ made) : p.2 ≠ o := by
  rintro rfl
  have hobject := ht.object x _ hx
  rw [hw.same _ x _ hobject (ht.origin x _ hobject), hw.settled p hp] at hx
  cases hx

/-- What becomes of operands when an object becomes a value through one of them. -/
theorem resolve_rebound (hw : Whole objects made s) (ht : Tracked first named objects made s)
    (hx : (s.resolve x).origin? = some o) (hr : Rebound o x v s s')
    (hlone : Lone objects o x ∨ s.resolve x = v) (hy : objects y = some i) :
    s'.resolve y = if i = o then v else s.resolve y := by
  have hobject := ht.object x o hx
  rw [ht.resolve_rebound hobject hr]
  by_cases hio : i = o
  · subst hio
    rw [if_pos rfl]
    split_ifs with hyx
    · rfl
    · rcases hlone with hlone | hv
      · exact absurd (hlone y hy) hyx
      · rw [hw.same i y x hy hobject, hv]
  · rw [if_neg hio, if_neg]
    rintro (rfl | rfl)
    · exact hio (Option.some.inj (hy.symm.trans hobject))
    · exact hio (Option.some.inj (hy.symm.trans (ht.origin x o hobject)))

/-- An object becomes a value for all operands that stand for it. -/
theorem rebound (hw : Whole objects made s) (ht : Tracked first named objects made s)
    (hx : (s.resolve x).origin? = some o) (hr : Rebound o x v s s')
    (hlone : Lone objects o x ∨ s.resolve x = v) (honce : (made'.map Prod.snd).Nodup)
    (hnew : ∀ p ∈ made', p ∈ made ∨ p.2 = o ∧ v = .operand (.op p.1)) :
    Whole objects made' s' := by
  have horigin := ht.origin x o (ht.object x o hx)
  refine ⟨honce, fun i y z hy hz => ?_, fun p hp => ?_⟩
  · rw [hw.resolve_rebound ht hx hr hlone hy, hw.resolve_rebound ht hx hr hlone hz,
      hw.same i y z hy hz]
  · rcases hnew p hp with hp | ⟨rfl, hv⟩
    · rw [hw.resolve_rebound ht hx hr hlone (ht.allocated p hp), if_neg (hw.ne_of_mem ht hx hp)]
      exact hw.settled p hp
    · rw [hw.resolve_rebound ht hx hr hlone horigin, if_pos rfl, hv]

theorem force (hw : Whole objects made s) (ht : Tracked first named objects made s)
    (hx : (s.resolve x).origin? = some o) (hlone : Lone objects o x) :
    Whole objects (made ++ [(s.nextId, o)]) (s.force [] x o) := by
  refine hw.rebound ht hx (ht.rebound_force hx) (Or.inl hlone) ?_ fun p hp => ?_
  · rw [List.map_append, List.nodup_append]
    refine ⟨hw.once, List.nodup_singleton _, fun i hi j hj => ?_⟩
    obtain ⟨p, hp, rfl⟩ := List.mem_map.1 hi
    rw [List.mem_singleton.1 hj]
    exact hw.ne_of_mem ht hx hp
  · refine (List.mem_append.1 hp).imp_right fun hp => ?_
    rw [List.mem_singleton.1 hp]
    exact ⟨rfl, rfl⟩

/-- An operand is given the meaning that all others for the same object have. -/
theorem define (hw : Whole objects made s) (ht : Tracked first named objects made s)
    (hx : x ∉ named) (hbelow : x.Below first) (v : Value) (w : Option OpId)
    (hsame : ∀ o y, w = some o → objects y = some o → s.settle x v = s.resolve y) :
    Whole (Function.update objects x w) made (s.bind x v) := by
  refine ⟨hw.once, fun o y z hy hz => ?_, fun p hp => ?_⟩
  · rw [ht.resolve_bind hbelow, ht.resolve_bind hbelow]
    by_cases hyx : y = x <;> by_cases hzx : z = x <;>
      simp only [hyx, hzx, Function.update_self, ne_eq, not_false_eq_true, Function.update_of_ne,
        if_true, if_false] at hy hz ⊢
    · exact hsame o z hy hz
    · exact (hsame o y hz hy).symm
    · exact hw.same o y z hy hz
  · rw [ht.resolve_bind hbelow, if_neg (ht.ne_of_not_mem hx (ht.allocated p hp))]
    exact hw.settled p hp

end Whole

theorem Operation.Records.not_forced {op : Operation} (h : op.Records s x o)
    (hset : op.kind = .setField → ∃ x, op.arg 0 = .ok x ∧ (s.resolve x).origin? = none) :
    False := by
  obtain ⟨hk, harg, hx⟩ := h
  obtain ⟨y, hy, hnone⟩ := hset hk
  obtain rfl := Except.ok.inj (harg.symm.trans hy)
  rw [hnone] at hx
  cases hx

/-! ### Forcing operands -/

theorem Tracked.origin?_force (ht : Tracked first named objects made s)
    (hx : (s.resolve x).origin? = some o) (hne : i ≠ o) :
    ((s.force [] x o).resolve y).origin? = some i ↔ (s.resolve y).origin? = some i := by
  have hobject := ht.object x o hx
  rw [ht.resolve_rebound hobject (ht.rebound_force hx)]
  split_ifs with hy
  · refine iff_of_false (fun h => nomatch h) fun hi => hne ?_
    have hyi := ht.object y i hi
    rcases hy with rfl | rfl
    · exact Option.some.inj (hyi.symm.trans hobject)
    · exact Option.some.inj (hyi.symm.trans (ht.origin x o hobject))
  · exact Iff.rfl

/-- Forcing another object does not change which operand is the first one for an object. -/
theorem Tracked.find?_force (ht : Tracked first named objects made s)
    (hx : (s.resolve x).origin? = some o) (hne : i ≠ o) (xs : List Operand) :
    xs.find? (fun y => ((s.force [] x o).resolve y).origin? = some i) =
      (x :: xs).find? (fun y => (s.resolve y).origin? = some i) := by
  rw [List.find?_cons_of_neg]
  · simp only [ht.origin?_force hx hne]
  · rw [hx]
    simpa using hne.symm

theorem Forces.whole {xs : List Operand} (h : Forces [] xs s s' made')
    (ht : Tracked first named objects made s) (hw : Whole objects made s)
    (hlone : ∀ o x, xs.find? (fun x => (s.resolve x).origin? = some o) = some x →
      Lone objects o x) : Whole objects (made ++ made') s' := by
  induction h generalizing made with
  | nil => rwa [List.append_nil]
  | skip hx _ ih =>
    refine ih ht hw fun o y hy => hlone o y ?_
    rw [List.find?_cons_of_neg, hy]
    rw [hx]
    simp
  | @force x xs o s s' made' hx hid h ih =>
    have hx' : Lone objects o x := by
      refine hlone o x (List.find?_cons_of_pos ?_)
      simpa using hx
    rw [List.append_cons]
    refine ih (ht.force hx hid) (hw.force ht hx hx') fun i y hy => ?_
    by_cases hio : i = o
    · -- no operand stands for the object that has not become its allocation
      subst hio
      have hyi : ((s.force [] x i).resolve y).origin? = some i := by
        simpa using List.find?_some hy
      have hyx := hx' y ((ht.force hx hid).object y i hyi)
      rw [ht.resolve_rebound (ht.object x i hx) (ht.rebound_force hx), if_pos hyx] at hyi
      cases hyi
    · rw [ht.find?_force hx hio] at hy
      exact hlone i y hy

theorem Forces.resolve_of_not_mem {xs : List Operand} (h : Forces [] xs s s' made')
    (ht : Tracked first named objects made s) (hz : objects z = some o)
    (ho : o ∉ made'.map Prod.snd) : s'.resolve z = s.resolve z := by
  induction h generalizing made with
  | nil => rfl
  | skip _ _ ih => exact ih ht ho
  | @force x xs i s s' made' hx hid h ih =>
    rw [List.map_cons, List.mem_cons, not_or] at ho
    have hobject := ht.object x i hx
    rw [ih (ht.force hx hid) ho.2, ht.resolve_rebound hobject (ht.rebound_force hx), if_neg]
    rintro (rfl | rfl)
    · exact ho.1 (Option.some.inj (hz.symm.trans hobject))
    · exact ho.1 (Option.some.inj (hz.symm.trans (ht.origin x i hobject)))

theorem Forces.origin?_eq_none {xs : List Operand} (h : Forces [] xs s s' made')
    (ht : Tracked first named objects made s) (hz : (s.resolve z).origin? = none) :
    (s'.resolve z).origin? = none := by
  induction h generalizing made with
  | nil => exact hz
  | skip _ _ ih => exact ih ht hz
  | force hx hid h ih =>
    refine ih (ht.force hx hid) ?_
    rw [ht.resolve_rebound (ht.object _ _ hx) (ht.rebound_force hx)]
    split_ifs
    · rfl
    · exact hz

/-- **A third operand splits an object that is allocated**: it is allocated again for that operand,
or that operand does not know of the allocation. -/
theorem Forces.split {xs : List Operand} (h : Forces [] xs s s' made')
    (ht : Tracked first named objects made s)
    (hx : xs.find? (fun x => (s.resolve x).origin? = some o) = some x)
    (hz : (s.resolve z).origin? = some o) (hzx : z ≠ x) (hzo : z ≠ .op o) :
    ¬ (made'.map Prod.snd).Nodup ∨
      (s'.resolve z).origin? = some o ∧ (s'.resolve x).origin? = none := by
  induction h generalizing made with
  | nil => cases hx
  | @skip y xs s s' made' hy h ih =>
    refine ih ht ?_ hz
    rwa [List.find?_cons_of_neg] at hx
    rw [hy]
    simp
  | @force y xs i s s' made' hy hid h ih =>
    have hz' := ht.object z o hz
    have hrebound := ht.resolve_rebound (ht.object y i hy) (ht.rebound_force hy)
    by_cases hio : i = o
    · subst hio
      obtain rfl : y = x := by
        rw [List.find?_cons_of_pos (by simpa using hy)] at hx
        exact Option.some.inj hx
      by_cases hagain : i ∈ made'.map Prod.snd
      · exact Or.inl fun hnodup => (List.nodup_cons.1 hnodup).1 hagain
      · right
        rw [h.resolve_of_not_mem (ht.force hy hid) hz' hagain, hrebound z,
          if_neg (not_or.2 ⟨hzx, hzo⟩)]
        refine ⟨hz, h.origin?_eq_none (ht.force hy hid) ?_⟩
        rw [hrebound y, if_pos (Or.inl rfl)]
        rfl
    · have hoi : o ≠ i := fun h => hio h.symm
      rw [← ht.find?_force hy hoi] at hx
      refine (ih (ht.force hy hid) hx ((ht.origin?_force hy hoi).2 hz)).imp_left fun hnot => ?_
      exact fun hnodup => hnot (List.nodup_cons.1 hnodup).2

/-! ### One request -/

/-- **A careful request keeps objects whole.** -/
theorem Served.whole {r : Request} (h : Served r s s' made')
    (ht : Tracked first named objects made s) (hr : ∀ x ∈ r.name?, x ∉ named ∧ x.Below first)
    (hw : Whole objects made s) (hcareful : r.Careful objects s) :
    Whole (r.track objects) (made ++ made') s' := by
  cases h with
  | @equate x y =>
    obtain ⟨hx, hbelow⟩ := hr x rfl
    rw [List.append_nil]
    refine hw.define ht hx hbelow (.operand y) (objects y) fun o z hy hz => ?_
    rw [ht.settle_operand hx hy, hw.same o y z hy hz]
  | @forward op _ _ _ hop =>
    have ht' : Tracked first named objects made (s.enter .allocationSinking op) := ht.congr rfl rfl
    have hw' : Whole objects made (s.enter .allocationSinking op) := hw.congr rfl
    cases hop with
    | postpone hk =>
      obtain ⟨hx, hbelow⟩ := hr op.result (if_pos hk)
      rw [Request.track_of_new hk, List.append_nil]
      refine (hw'.define ht' hx hbelow (.blank op.id) (some op.id) fun o y ho hy => ?_).congr rfl
      -- no operand stands for the object yet
      obtain rfl := Option.some.inj ho
      exact absurd rfl (ht.ne_of_not_mem hx (ht.origin y _ hy))
    | @absorb _ x y o _ hk harg hx harg' =>
      rw [Request.track_of_ne (by rw [hk]; decide), List.append_nil]
      have htn : Tracked first named objects made ((s.enter .allocationSinking op).note
          (.absorbed op (.written o (s.resolve y)))) := ht.congr rfl rfl
      have hwn : Whole objects made ((s.enter .allocationSinking op).note
          (.absorbed op (.written o (s.resolve y)))) := hw.congr rfl
      exact (hwn.rebound htn hx (htn.rebound_record _)
        (hcareful.write x y o ⟨hk, harg, hx⟩ harg') hw.once fun p hp => Or.inl hp).congr rfl
    | force hk hset hargs h =>
      cases h with
      | emit =>
        rw [Request.track_of_ne hk, List.append_nil]
        refine (hargs.whole ht' hw' (hcareful.force hk fun x o hrecords => ?_)).congr rfl
        exact hrecords.not_forced hset

/-- **Only a careful request keeps objects whole.** -/
theorem Served.careful {r : Request} (h : Served r s s' made')
    (ht : Tracked first named objects made s) (hw : Whole objects made s)
    (hu : Unsplit (r.track objects) (made ++ made') s') : r.Careful objects s := by
  cases h with
  | equate => trivial
  | @forward op _ _ _ hop =>
    have ht' : Tracked first named objects made (s.enter .allocationSinking op) := ht.congr rfl rfl
    cases hop with
    | postpone hk =>
      refine ⟨fun x y o hrecords => ?_, fun hne => absurd hk hne⟩
      rw [hrecords.1] at hk
      cases hk
    | @absorb _ x y o _ hk harg hx harg' =>
      rw [Request.track_of_ne (by rw [hk]; decide)] at hu
      refine ⟨fun x' y' o' hrecords hy' => ?_, fun _ hnone => absurd ⟨hk, harg, hx⟩ (hnone x o)⟩
      obtain rfl := Except.ok.inj (harg.symm.trans hrecords.2.1)
      obtain rfl := Option.some.inj (hx.symm.trans hrecords.2.2)
      obtain rfl := Except.ok.inj (harg'.symm.trans hy')
      have hobject := ht.object x o hx
      have htn : Tracked first named objects made ((s.enter .allocationSinking op).note
          (.absorbed op (.written o (s.resolve y)))) := ht.congr rfl rfl
      have hresolve := htn.resolve_rebound hobject (htn.rebound_record (s.resolve y))
      refine or_iff_not_imp_left.2 fun hlone => ?_
      obtain ⟨z, hz, hzx⟩ : ∃ z, objects z = some o ∧ ¬ (z = x ∨ z = .op o) := by
        simpa [Lone] using hlone
      -- the third operand still has the value from before the write
      have hsame := (hu.same o x z hobject hz).1
      have hnew := hresolve x
      have hold := hresolve z
      rw [if_pos (Or.inl rfl)] at hnew
      rw [if_neg hzx] at hold
      rw [hw.same o x z hobject hz]
      exact (hold.symm.trans (hsame.symm.trans hnew))
    | @force _ _ s₁ _ made₁ _ hk hset hargs h =>
      cases h with
      | emit =>
        rw [Request.track_of_ne hk] at hu
        rw [List.append_nil] at hu
        refine ⟨fun x y o hrecords => (hrecords.not_forced hset).elim, fun _ _ o x hx z hz => ?_⟩
        by_contra hzx
        rw [not_or] at hzx
        have hxo : (s.resolve x).origin? = some o := by simpa using List.find?_some hx
        have hobject := ht.object x o hxo
        have hzo : (s.resolve z).origin? = some o := by rw [← hw.same o x z hobject hz, hxo]
        rcases hargs.split ht' hx hzo hzx.1 hzx.2 with hnot | ⟨hz', hx'⟩
        · have honce := hu.once
          rw [List.map_append] at honce
          exact hnot honce.of_append_right
        · have hsame : s₁.resolve x = s₁.resolve z := (hu.same o x z hobject hz).1
          rw [hsame, hz'] at hx'
          cases hx'

end

/-! ### Sessions -/

section

variable {first : OpId} {rs : List Request} {s s' : Run} {made : Allocations}

/-- The allocations of a session are those that it adds to the output. -/
theorem Served.output {r : Request} (h : Served r s s' made) :
    ∃ outs, s'.output.toList = s.output.toList ++ outs ∧
      outs.filter (·.kind = .new) = made.map allocated := by
  cases h with
  | equate => exact ⟨[], (List.append_nil _).symm, rfl⟩
  | @forward op _ _ _ hop =>
    cases hop with
    | postpone => exact ⟨[], (List.append_nil _).symm, rfl⟩
    | absorb =>
      refine ⟨[], ?_, rfl⟩
      refine (congrArg Array.toList (Run.output_bindObject ..)).trans ?_
      exact (List.append_nil _).symm
    | @force _ _ s₁ _ made₁ _ hk hset hargs h =>
      cases h with
      | @emit args =>
        refine ⟨made₁.map allocated ++ [{ op with args }], ?_, ?_⟩
        · rw [← List.append_assoc]
          exact Array.toList_push.trans (congrArg (· ++ [_]) hargs.output_nil)
        · rw [List.append_nil]
          exact filter_new_append hk

theorem Session.output (h : Session rs s s' made) :
    ∃ outs, s'.output.toList = s.output.toList ++ outs ∧
      outs.filter (·.kind = .new) = made.map allocated := by
  induction h with
  | nil => exact ⟨[], (List.append_nil _).symm, rfl⟩
  | cons _ hr _ ih =>
    obtain ⟨outs, hout, hnew⟩ := hr.output
    obtain ⟨outs', hout', hnew'⟩ := ih
    refine ⟨outs ++ outs', ?_, ?_⟩
    · rw [hout', hout, List.append_assoc]
    · rw [List.filter_append, hnew, hnew', List.map_append]

theorem Session.filter_output (h : Session rs (Run.start first) s made) :
    s.output.toList.filter (·.kind = .new) = made.map allocated := by
  obtain ⟨outs, hout, hnew⟩ := h.output
  obtain rfl : s.output.toList = outs := hout
  exact hnew

/-- Objects are whole after careful requests. -/
theorem Session.whole (h : Session rs (Run.start first) s made) (hrs : Orderly first rs)
    (hcareful : ∀ done r rest s₁, rs = done ++ r :: rest →
      performAll done (Run.start first) = .ok () s₁ → r.Careful (objectOf done) s₁) :
    Whole (objectOf rs) made s := by
  induction rs using List.reverseRecOn generalizing s made with
  | nil =>
    cases h
    exact ⟨List.nodup_nil, fun _ _ _ hx => (nomatch hx), fun _ hp => (nomatch hp)⟩
  | append_singleton rs r ih =>
    obtain ⟨s₁, made₁, made₂, hbefore, hlast, rfl⟩ := h.split
    cases hlast with
    | cons _ hr hnil =>
      cases hnil
      have hw := ih hbefore hrs.of_append fun done r' rest s₂ hsplit hdone =>
        hcareful done r' (rest ++ [r]) s₂ (by simp [hsplit]) hdone
      rw [List.append_nil, objectOf_append_singleton]
      exact hr.whole (hbefore.tracked hrs.of_append) hrs.name_new hw
        (hcareful rs r [] s₁ rfl hbefore.performAll_eq)

/-- Objects that stay unsplit are whole, and all requests were careful. -/
theorem Session.careful (h : Session rs (Run.start first) s made) (hrs : Orderly first rs)
    (hunsplit : ∀ done rest s₁ made₁, rs = done ++ rest →
      Session done (Run.start first) s₁ made₁ → Unsplit (objectOf done) made₁ s₁) :
    Whole (objectOf rs) made s ∧ ∀ done r rest s₁, rs = done ++ r :: rest →
      performAll done (Run.start first) = .ok () s₁ → r.Careful (objectOf done) s₁ := by
  induction rs using List.reverseRecOn generalizing s made with
  | nil =>
    cases h
    refine ⟨⟨List.nodup_nil, fun _ _ _ hx => (nomatch hx), fun _ hp => (nomatch hp)⟩,
      fun done r rest s₁ hsplit => ?_⟩
    simp at hsplit
  | append_singleton rs r ih =>
    have hall := hunsplit (rs ++ [r]) [] s made (List.append_nil _).symm h
    obtain ⟨s₁, made₁, made₂, hbefore, hlast, rfl⟩ := h.split
    obtain ⟨hw, hcareful⟩ := ih hbefore hrs.of_append fun done rest s₂ made' hsplit =>
      hunsplit done (rest ++ [r]) s₂ made' (by simp [hsplit])
    cases hlast with
    | cons _ hr hnil =>
      cases hnil
      rw [List.append_nil, objectOf_append_singleton] at hall
      rw [List.append_nil, objectOf_append_singleton]
      have ht := hbefore.tracked hrs.of_append
      have hlast := hr.careful ht hw hall
      refine ⟨hr.whole ht hrs.name_new hw hlast, fun done r' rest s₂ hsplit hdone => ?_⟩
      rcases List.eq_nil_or_concat rest with rfl | ⟨rest', r'', rfl⟩
      · -- the last request, made in the state that the others lead to
        obtain ⟨rfl, hr'⟩ := List.append_inj' hsplit rfl
        obtain rfl := List.singleton_inj.1 hr'
        have hsame := hbefore.performAll_eq.symm.trans hdone
        cases hsame
        exact hlast
      · have hsplit' : rs ++ [r] = (done ++ r' :: rest') ++ [r''] := by simp [hsplit]
        exact hcareful done r' rest' s₂ (List.append_inj' hsplit' rfl).1 hdone

end

/-- Objects are unsplit at every point of a session. -/
def StaysUnsplit (first : OpId) (rs : List Request) : Prop :=
  ∀ done rest s made, rs = done ++ rest → Session done (Run.start first) s made →
    Unsplit (objectOf done) made s

/-- Every request of a session is careful. -/
def AllCareful (first : OpId) (rs : List Request) : Prop :=
  ∀ done r rest s, rs = done ++ r :: rest → performAll done (Run.start first) = .ok () s →
    r.Careful (objectOf done) s

/-- **Objects are unsplit all along a session just if every operation is careful.**  The allocations
of a session are those in the output. -/
theorem performAll_unsplit_iff (first : OpId) (rs : List Request) (s : Run)
    (hrs : Orderly first rs) (h : performAll rs (Run.start first) = .ok () s) :
    (StaysUnsplit first rs ↔ AllCareful first rs) ∧
      ∀ done rest s₁ made, rs = done ++ rest → Session done (Run.start first) s₁ made →
        s₁.output.toList.filter (·.kind = .new) = made.map allocated := by
  obtain ⟨made, hsession⟩ := Session.of_performAll h
  refine ⟨⟨fun hunsplit => (hsession.careful hrs hunsplit).2, ?_⟩, ?_⟩
  · rintro hcareful done rest s₁ made₁ rfl hdone
    have hdone' : Orderly first done := hrs.of_append
    refine (hdone.whole hdone' fun before r after s₂ hsplit => ?_).unsplit (hdone.tracked hdone')
    exact hcareful before r (after ++ rest) s₂ (by simp [hsplit])
  · exact fun done rest s₁ made₁ _ hdone => hdone.filter_output

/-! ### Checking sessions -/

/-- The state that requests lead to. -/
def performed? (rs : List Request) (s : Run) : Option Run :=
  match performAll rs s with
  | .ok _ s' => some s'
  | .error _ _ => none

theorem performed?_eq_some_iff {rs : List Request} {s s' : Run} :
    performed? rs s = some s' ↔ performAll rs s = .ok () s' := by
  unfold performed?
  cases performAll rs s <;> simp

theorem exists_performAll {rs : List Request} {s : Run} {p : Run → Bool}
    (h : (performed? rs s).any p = true) : ∃ s', performAll rs s = .ok () s' ∧ p s' = true := by
  obtain ⟨s', hs', hp⟩ := (Option.any_eq_true _ _).1 h
  exact ⟨s', performed?_eq_some_iff.1 hs', hp⟩

instance (rs : List Request) (o : OpId) (x : Operand) : Decidable (Lone (objectOf rs) o x) :=
  decidable_of_iff (∀ z ∈ rs.filterMap Request.name?, objectOf rs z = some o → z = x ∨ z = .op o)
    ⟨fun h z hz => h z (mem_of_objectOf hz) hz, fun h z _ => h z⟩

/-- Whether an operation is careful is seen from its arguments. -/
theorem Operation.careful_iff {objects : Operand → Option OpId} {s : Run} {op : Operation} :
    op.Careful objects s ↔
      (op.kind = .setField → ∀ x ∈ op.args[0]?, ∀ o ∈ (s.resolve x).origin?, ∀ y ∈ op.args[1]?,
        Lone objects o x ∨ s.resolve x = .written o (s.resolve y)) ∧
      (op.kind ≠ .new → (op.kind = .setField → ∀ x ∈ op.args[0]?, (s.resolve x).origin? = none) →
        ∀ x ∈ op.args, ∀ o ∈ (s.resolve x).origin?,
          op.args.find? (fun x => (s.resolve x).origin? = some o) = some x →
            Lone objects o x) := by
  constructor
  · intro h
    refine ⟨fun hk x hx o ho y hy => ?_, fun hk hrecords x hx o ho hfind => ?_⟩
    · exact h.write x y o ⟨hk, arg_eq_ok_iff.2 hx, ho⟩ (arg_eq_ok_iff.2 hy)
    · refine h.force hk (fun z i hz => ?_) o x hfind
      have hnone := hrecords hz.1 z (arg_eq_ok_iff.1 hz.2.1)
      rw [hz.2.2] at hnone
      cases hnone
  · rintro ⟨hwrite, hforce⟩
    refine ⟨fun x y o hx hy => ?_, fun hk hrecords o x hfind => ?_⟩
    · exact hwrite hx.1 x (arg_eq_ok_iff.1 hx.2.1) o hx.2.2 y (arg_eq_ok_iff.1 hy)
    · have ho : (s.resolve x).origin? = some o := by simpa using List.find?_some hfind
      refine hforce hk (fun hset z hz => ?_) x (List.mem_of_find?_eq_some hfind) o ho hfind
      exact Option.eq_none_iff_forall_ne_some.2 fun i hi =>
        hrecords z i ⟨hset, arg_eq_ok_iff.2 hz, hi⟩

instance (rs : List Request) (s : Run) (op : Operation) :
    Decidable (op.Careful (objectOf rs) s) :=
  -- there are finitely many ids, but only the one that is given has to be looked at
  letI (o? : Option OpId) (p : OpId → Prop) [DecidablePred p] : Decidable (∀ o ∈ o?, p o) :=
    Option.decidableForallMem o?
  decidable_of_iff' _ Operation.careful_iff

instance (rs : List Request) (s : Run) : DecidablePred (Request.Careful (objectOf rs) s)
  | .forward op => inferInstanceAs (Decidable (op.Careful (objectOf rs) s))
  | .equate _ _ => isTrue trivial

/-- Whether a session is careful is seen request by request. -/
theorem allCareful_iff {first : OpId} {rs : List Request} :
    AllCareful first rs ↔ ∀ i < rs.length, ∀ r ∈ rs[i]?,
      ∀ s ∈ performed? (rs.take i) (Run.start first), r.Careful (objectOf (rs.take i)) s := by
  constructor
  · intro h i _ r hr s hs
    have hsplit : rs = rs.take i ++ r :: rs.drop (i + 1) := by
      obtain ⟨hi, rfl⟩ := List.getElem?_eq_some_iff.1 hr
      rw [List.getElem_cons_drop, List.take_append_drop]
    exact h (rs.take i) r (rs.drop (i + 1)) s hsplit (performed?_eq_some_iff.1 hs)
  · rintro h done r rest s rfl hs
    have hlt : done.length < (done ++ r :: rest).length := by simp
    have hcareful := h done.length hlt r (by simp) s
    rw [List.take_left] at hcareful
    exact hcareful (performed?_eq_some_iff.2 hs)

instance (first : OpId) (rs : List Request) : Decidable (AllCareful first rs) :=
  decidable_of_iff' _ allCareful_iff

end AnyHash

/-! ### Two operands for one object -/

/-- An object is written to and allocated through an input that stands for it. -/
def shared : List Request :=
  [.forward ⟨0, .new, [], some .ref⟩,
    .equate (.input 0) (.op 0),
    .forward ⟨1, .setField, [.input 0, .const 7], none⟩,
    .forward ⟨2, .call, [.input 0, .op 0], some .ref⟩,
    .equate (.op 3) (.op 0),
    .forward ⟨4, .finish, [.op 3, .input 0], none⟩]

/-- No third operand stands for the object when it is reached, so it is not split. -/
theorem shared_unsplit :
    Orderly 10 shared ∧ ∃ s, performAll shared (Run.start 10) = .ok () s ∧
      s.output.toList = [⟨10, .new, [], some .ref⟩, ⟨2, .call, [.op 10, .op 10], some .ref⟩,
        ⟨4, .finish, [.op 10, .op 10], none⟩] ∧
      AllCareful 10 shared ∧ StaysUnsplit 10 shared ∧
      ∀ done rest s₁ made, shared = done ++ rest → Session done (Run.start 10) s₁ made →
        s₁.output.toList.filter (·.kind = .new) = made.map allocated := by
  have horderly : Orderly 10 shared := by decide
  obtain ⟨s, hs, hout⟩ : ∃ s, performAll shared (Run.start 10) = .ok () s ∧
      decide (s.output.toList = [⟨10, .new, [], some .ref⟩,
        ⟨2, .call, [.op 10, .op 10], some .ref⟩, ⟨4, .finish, [.op 10, .op 10], none⟩]) = true :=
    exists_performAll (by decide +kernel)
  have hcareful : AllCareful 10 shared := by decide +kernel
  obtain ⟨hiff, hmade⟩ := performAll_unsplit_iff 10 shared s horderly hs
  exact ⟨horderly, s, hs, of_decide_eq_true hout, hcareful, hiff.2 hcareful, hmade⟩

/-- An object is passed to a call, and then to another one through an operand that stands for it. -/
def aliased : List Request :=
  [.forward ⟨0, .new, [], some .ref⟩,
    .equate (.op 1) (.op 0),
    .forward ⟨2, .call, [.op 0], some .ref⟩,
    .forward ⟨3, .call, [.op 1], some .ref⟩]

/-- **An object is split**: after the first call the two operands that stand for it have different
values, and at the second call another allocation is made for it. -/
theorem aliased_split :
    Orderly 10 aliased ∧
      (∃ s made, Session (aliased.take 3) (Run.start 10) s made ∧
        objectOf (aliased.take 3) (.op 0) = some 0 ∧ objectOf (aliased.take 3) (.op 1) = some 0 ∧
        s.resolve (.op 0) = .operand (.op 10) ∧ s.resolve (.op 1) = .blank 0) ∧
      ∃ s made, Session aliased (Run.start 10) s made ∧ made.map Prod.snd = [0, 0] ∧
        s.output.toList = [⟨10, .new, [], some .ref⟩, ⟨2, .call, [.op 10], some .ref⟩,
          ⟨11, .new, [], some .ref⟩, ⟨3, .call, [.op 11], some .ref⟩] := by
  have horderly : Orderly 10 aliased := by decide
  refine ⟨horderly, ?_, ?_⟩
  · obtain ⟨s, hs, hvalues⟩ : ∃ s, performAll (aliased.take 3) (Run.start 10) = .ok () s ∧
        decide (s.resolve (.op 0) = .operand (.op 10) ∧ s.resolve (.op 1) = .blank 0) = true :=
      exists_performAll (by decide +kernel)
    obtain ⟨made, hsession⟩ := Session.of_performAll hs
    exact ⟨s, made, hsession, by decide, by decide, of_decide_eq_true hvalues⟩
  · obtain ⟨s, hs, hout⟩ : ∃ s, performAll aliased (Run.start 10) = .ok () s ∧
        decide (s.output.toList = [⟨10, .new, [], some .ref⟩, ⟨2, .call, [.op 10], some .ref⟩,
          ⟨11, .new, [], some .ref⟩, ⟨3, .call, [.op 11], some .ref⟩]) = true :=
      exists_performAll (by decide +kernel)
    obtain ⟨made, hsession⟩ := Session.of_performAll hs
    have hlist := of_decide_eq_true hout
    refine ⟨s, made, hsession, ?_, hlist⟩
    -- both allocations are made for the only object there is
    have hlength : made.length = 2 := by
      have hnew := congrArg List.length hsession.filter_output
      rw [hlist, List.length_map] at hnew
      exact hnew.symm
    have hobject : ∀ o ∈ made.map Prod.snd, o = 0 := by
      intro o ho
      obtain ⟨p, hp, rfl⟩ := List.mem_map.1 ho
      have hnamed : (if p.2 = 1 then some 0 else if p.2 = 0 then some 0 else none) = some p.2 := by
        simpa [aliased, objectOf, Request.track, Function.update_apply, Operation.result] using
          (hsession.tracked horderly).allocated p hp
      split_ifs at hnamed with _ hzero
      · exact (Option.some.inj hnamed).symm
      · exact hzero
    rw [List.eq_replicate_iff.2 ⟨(List.length_map _).trans hlength, hobject⟩]
    rfl

end TraceOpt
