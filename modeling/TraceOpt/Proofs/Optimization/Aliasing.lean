import Mathlib.Logic.Function.Basic
import TraceOpt.Proofs.Optimization.Ledger
import TraceOpt.Proofs.Optimization.Soundness

/-!
# Operands that stand for one object

An operand may be made to stand for what another one stands for.  If that is an object not yet
allocated, there are then two operands for it.  A session is a list of such requests and of
operations, given to the stage that puts off allocations; which object an operand stands for is read
off the requests alone.

* `Request`, `performAll`, `Session`: what is asked for, and what is done.
* `objectOf`: the object that an operand stands for after some requests.
* `Tracked`, `Session.tracked`: operands that stand for an object are that object or an allocation
  made for it.
-/

namespace TraceOpt

/-! ### Sessions -/

/-- What the stage that puts off allocations is asked for. -/
inductive Request where
  /-- To take an operation. -/
  | forward (op : Operation)
  /-- To let an operand stand for what another one stands for. -/
  | equate (x y : Operand)
  deriving DecidableEq

namespace Request

/-- Does what is asked for. -/
def perform [Hashable Operand] : Request → Action Unit
  | forward op => Stage.forward [AllocationSinking.stage] op
  | equate x y => Action.bindTo x (.operand y)

/-- The operand that is given a meaning. -/
def name? : Request → Option Operand
  | forward op => if op.kind = .new then some op.result else none
  | equate x _ => some x

/-- The objects that operands stand for after a request, given those before it. -/
def track (objects : Operand → Option OpId) : Request → Operand → Option OpId
  | forward op =>
    if op.kind = .new then Function.update objects op.result (some op.id) else objects
  | equate x y => Function.update objects x (objects y)

theorem name?_of_ne {op : Operation} (h : op.kind ≠ .new) : (forward op).name? = none := if_neg h

theorem track_of_ne {op : Operation} (h : op.kind ≠ .new) (objects : Operand → Option OpId) :
    (forward op).track objects = objects := if_neg h

theorem track_of_new {op : Operation} (h : op.kind = .new) (objects : Operand → Option OpId) :
    (forward op).track objects = Function.update objects op.result (some op.id) := if_pos h

end Request

/-- Does what is asked for, one request after another. -/
def performAll [Hashable Operand] : List Request → Action Unit
  | [] => pure ()
  | r :: rs => do
    r.perform
    performAll rs

/-- The object that an operand stands for after some requests, by the id of its `new` operation. -/
def objectOf (rs : List Request) : Operand → Option OpId := rs.foldl Request.track fun _ => none

/-- An operand that may be given a meaning when ids from a first one on are unused: no literal, and
no unused id. -/
def Operand.Below (first : OpId) : Operand → Prop
  | .input _ => True
  | .op id => id < first
  | .const _ => False

instance (first : OpId) : DecidablePred (Operand.Below first)
  | .input _ => isTrue trivial
  | .op id => inferInstanceAs (Decidable (id < first))
  | .const _ => isFalse id

/-- Requests that give a meaning to operands only that have none. -/
structure Orderly (first : OpId) (rs : List Request) : Prop where
  /-- No operand is given a meaning twice. -/
  distinct : (rs.filterMap Request.name?).Nodup
  /-- Each may be given one. -/
  below : ∀ x ∈ rs.filterMap Request.name?, x.Below first

instance (first : OpId) (rs : List Request) : Decidable (Orderly first rs) :=
  decidable_of_iff ((rs.filterMap Request.name?).Nodup ∧
      ∀ x ∈ rs.filterMap Request.name?, x.Below first)
    ⟨fun h => ⟨h.1, h.2⟩, fun h => ⟨h.distinct, h.below⟩⟩

/-- Doing what is asked for leads from one state to another, with these allocations. -/
inductive Served [Hashable Operand] : Request → Run → Run → Allocations → Prop
  | forward {op : Operation} {s s' : Run} {made : Allocations}
      (hop : Passage op [.allocationSinking] s s' made) : Served (.forward op) s s' made
  | equate {x y : Operand} {s : Run} : Served (.equate x y) s (s.bind x (.operand y)) []

/-- Doing what is asked for, one request after another, leads from one state to another, with these
allocations. -/
inductive Session [Hashable Operand] : List Request → Run → Run → Allocations → Prop
  | nil {s : Run} : Session [] s s []
  | cons {r : Request} {rs : List Request} {s s₁ s' : Run} {made made' : Allocations}
      (hok : r.perform s = .ok () s₁) (hr : Served r s s₁ made) (h : Session rs s₁ s' made') :
      Session (r :: rs) s s' (made ++ made')

theorem objectOf_append_singleton (rs : List Request) (r : Request) :
    objectOf (rs ++ [r]) = r.track (objectOf rs) := by
  rw [objectOf, List.foldl_append]
  rfl

/-- Only operands that are given a meaning stand for an object. -/
theorem mem_of_objectOf {rs : List Request} {x : Operand} {o : OpId} (h : objectOf rs x = some o) :
    x ∈ rs.filterMap Request.name? := by
  induction rs using List.reverseRecOn with
  | nil => cases h
  | append_singleton rs r ih =>
    rw [objectOf_append_singleton] at h
    rw [List.filterMap_append, List.mem_append]
    cases r with
    | forward op =>
      by_cases hk : op.kind = .new
      · rw [Request.track_of_new hk, Function.update_apply] at h
        split_ifs at h with hx
        · exact Or.inr (by simp [Request.name?, hk, hx])
        · exact Or.inl (ih h)
      · rw [Request.track_of_ne hk] at h
        exact Or.inl (ih h)
    | equate y z =>
      rw [Request.track, Function.update_apply] at h
      split_ifs at h with hx
      · exact Or.inr (by simp [Request.name?, hx])
      · exact Or.inl (ih h)

section

variable [Hashable Operand]
variable {r : Request} {rs rest : List Request} {s s' s'' : Run} {made made' : Allocations}

theorem Served.of_perform (h : r.perform s = .ok () s') : ∃ made, Served r s s' made := by
  cases r with
  | forward op =>
    have hforward : Stage.forward ([Pass.allocationSinking].map Pass.stage) op s = .ok () s' := h
    obtain ⟨made, hop⟩ := Passage.of_forward hforward
    exact ⟨made, .forward hop⟩
  | equate x y =>
    cases h
    exact ⟨[], .equate⟩

namespace Session

theorem of_performAll (h : performAll rs s = .ok () s') : ∃ made, Session rs s s' made := by
  induction rs generalizing s with
  | nil =>
    cases h
    exact ⟨[], .nil⟩
  | cons r rs ih =>
    obtain ⟨_, s₁, hok, hrest⟩ := Action.bind_eq_ok h
    obtain ⟨made, hr⟩ := Served.of_perform hok
    obtain ⟨made', hrs⟩ := ih hrest
    exact ⟨made ++ made', .cons hok hr hrs⟩

theorem performAll_eq (h : Session rs s s' made) : performAll rs s = .ok () s' := by
  induction h with
  | nil => rfl
  | cons hok _ _ ih => exact (Action.bind_of_ok hok).trans ih

theorem split (h : Session (rs ++ rest) s s' made) :
    ∃ s₁ made₁ made₂, Session rs s s₁ made₁ ∧ Session rest s₁ s' made₂ ∧ made = made₁ ++ made₂ := by
  induction rs generalizing s made with
  | nil => exact ⟨s, [], made, .nil, h, rfl⟩
  | cons r rs ih =>
    cases h with
    | cons hok hr h =>
      obtain ⟨s₁, made₁, made₂, hrs, hrest, rfl⟩ := ih h
      exact ⟨s₁, _, made₂, .cons hok hr hrs, hrest, (List.append_assoc ..).symm⟩

end Session

end

/-! ### What operands stand for -/

/-- What holds of a state in which operands stand for objects, whether these are split or not. -/
structure Tracked [Hashable Operand] (first : OpId) (named : List Operand)
    (objects : Operand → Option OpId) (made : Allocations) (s : Run) : Prop where
  /-- The bindings are a map. -/
  valid : s.bindings.Valid
  /-- The unused ids are not below the first one. -/
  next : first.toNat ≤ s.nextId.toNat
  /-- An operand without a meaning is not bound and stands for no object. -/
  unnamed : ∀ x, x ∉ named → s.bindings.find? x = none ∧ objects x = none
  /-- Operands with a meaning may be given one. -/
  below : ∀ x ∈ named, x.Below first
  /-- The `new` operation of an object stands for it. -/
  origin : ∀ x o, objects x = some o → objects (.op o) = some o
  /-- Whatever is an object stands for it. -/
  object : ∀ x o, (s.resolve x).origin? = some o → objects x = some o
  /-- What stands for an object is the object or an allocation made for it. -/
  value : ∀ x o, objects x = some o →
    (s.resolve x).origin? = some o ∨ ∃ a, (a, o) ∈ made ∧ s.resolve x = .operand (.op a)
  /-- Allocations are made for objects. -/
  allocated : ∀ p ∈ made, objects (.op p.2) = some p.2

section

variable [Hashable Operand]
variable {first : OpId} {named : List Operand} {objects : Operand → Option OpId}
  {made made' : Allocations} {s s' : Run} {x y z : Operand} {o : OpId} {v : Value}

theorem Operand.Below.resolve_eq (hx : x.Below first) (h : s.bindings.find? x = some v) :
    s.resolve x = v := by
  rcases s.resolve_cases x with ⟨n, rfl, -⟩ | hbound | ⟨hnone, -⟩
  · exact hx.elim
  · exact (Option.some.inj (h.symm.trans hbound)).symm
  · rw [h] at hnone
    cases hnone

/-- The state after an object, found by an operand, has become a value. -/
def Rebound (o : OpId) (x : Operand) (v : Value) (s s' : Run) : Prop :=
  ∀ y, s'.bindings.find? y = if y = x ∨ y = .op o then some v else s.bindings.find? y

namespace Tracked

theorem mem_named (h : Tracked first named objects made s) (hx : objects x = some o) :
    x ∈ named := by
  by_contra hmem
  rw [(h.unnamed x hmem).2] at hx
  cases hx

theorem ne_nextId (h : Tracked first named objects made s) (hx : objects x = some o) :
    o ≠ s.nextId := by
  rintro rfl
  have hlt : s.nextId < first := h.below _ (h.mem_named (h.origin x _ hx))
  exact absurd h.next (Nat.not_le.2 (UInt32.lt_iff_toNat_lt.1 hlt))

theorem find?_nextId (h : Tracked first named objects made s) :
    s.bindings.find? (.op s.nextId) = none := by
  refine (h.unnamed _ fun hmem => ?_).1
  have hlt : s.nextId < first := h.below _ hmem
  exact absurd h.next (Nat.not_le.2 (UInt32.lt_iff_toNat_lt.1 hlt))

theorem resolve_rebound (h : Tracked first named objects made s) (hx : objects x = some o)
    (hr : Rebound o x v s s') (y : Operand) :
    s'.resolve y = if y = x ∨ y = .op o then v else s.resolve y := by
  split_ifs with hy
  · have hbelow : y.Below first := by
      rcases hy with rfl | rfl
      · exact h.below _ (h.mem_named hx)
      · exact h.below _ (h.mem_named (h.origin x o hx))
    refine hbelow.resolve_eq ?_
    rw [hr y, if_pos hy]
  · refine Run.resolve_congr ?_
    rw [hr y, if_neg hy]

/-- An object becomes itself with a write, or an allocation. -/
theorem rebound (h : Tracked first named objects made s) (hx : objects x = some o)
    (hr : Rebound o x v s s') (hvalid : s'.bindings.Valid)
    (hnext : first.toNat ≤ s'.nextId.toNat) (hmade : made ⊆ made')
    (hnew : ∀ p ∈ made', p ∈ made ∨ p.2 = o)
    (hv : v.origin? = some o ∨ ∃ a, (a, o) ∈ made' ∧ v = .operand (.op a)) :
    Tracked first named objects made' s' := by
  have horigin := h.origin x o hx
  constructor
  case valid => exact hvalid
  case next => exact hnext
  case below => exact h.below
  case origin => exact h.origin
  case unnamed =>
    intro y hy
    refine ⟨?_, (h.unnamed y hy).2⟩
    rw [hr y, if_neg, (h.unnamed y hy).1]
    rintro (rfl | rfl)
    · exact hy (h.mem_named hx)
    · exact hy (h.mem_named horigin)
  case object =>
    intro y i hy
    rw [h.resolve_rebound hx hr] at hy
    split_ifs at hy with hyx
    · obtain hvo | ⟨a, -, rfl⟩ := hv
      · obtain rfl := Option.some.inj (hvo.symm.trans hy)
        rcases hyx with rfl | rfl
        · exact hx
        · exact horigin
      · cases hy
    · exact h.object y i hy
  case value =>
    intro y i hy
    rw [h.resolve_rebound hx hr]
    split_ifs with hyx
    · have hyo : objects y = some o := by
        rcases hyx with rfl | rfl
        · exact hx
        · exact horigin
      rwa [← Option.some.inj (hyo.symm.trans hy)]
    · exact (h.value y i hy).imp_right fun ⟨a, ha, hya⟩ => ⟨a, hmade ha, hya⟩
  case allocated =>
    intro p hp
    rcases hnew p hp with hp | rfl
    · exact h.allocated p hp
    · exact horigin

theorem rebound_force (h : Tracked first named objects made s)
    (hx : (s.resolve x).origin? = some o) :
    Rebound o x (.operand (.op s.nextId)) s (s.force [] x o) := fun y =>
  Run.find?_force List.not_mem_nil h.valid h.find?_nextId (h.ne_nextId (h.object x o hx)) y

theorem force (h : Tracked first named objects made s) (hx : (s.resolve x).origin? = some o)
    (hid : s.nextId ≠ OpId.last) :
    Tracked first named objects (made ++ [(s.nextId, o)]) (s.force [] x o) := by
  refine h.rebound (h.object x o hx) (h.rebound_force hx) (Run.valid_force h.valid _ _ _) ?_
    (List.subset_append_left _ _) (fun p hp => ?_)
    (Or.inr ⟨_, List.mem_append_right _ List.mem_cons_self, rfl⟩)
  · rw [Run.nextId_force, OpId.toNat_succ hid]
    exact Nat.le_succ_of_le h.next
  · refine (List.mem_append.1 hp).imp_right fun hp => ?_
    rw [List.mem_singleton.1 hp]

theorem resolve_bind (h : Tracked first named objects made s) (hbelow : x.Below first)
    (v : Value) (y : Operand) :
    (s.bind x v).resolve y = if y = x then s.settle x v else s.resolve y := by
  split_ifs with hy
  · rw [hy]
    refine hbelow.resolve_eq ?_
    rw [Run.find?_bind h.valid, if_pos rfl]
  · exact Run.resolve_bind_of_ne h.valid hy

/-- An operand that stands for an object has a meaning. -/
theorem ne_of_not_mem (h : Tracked first named objects made s) (hx : x ∉ named)
    (hy : objects y = some o) : y ≠ x := by
  rintro rfl
  exact hx (h.mem_named hy)

/-- An operand without a meaning is given one. -/
theorem define (h : Tracked first named objects made s) (hx : x ∉ named) (hbelow : x.Below first)
    (v : Value) (w : Option OpId) (hobject : ∀ o, (s.settle x v).origin? = some o → w = some o)
    (horigin : ∀ o, w = some o → objects (.op o) = some o ∨ x = .op o)
    (hvalue : ∀ o, w = some o → (s.settle x v).origin? = some o ∨
      ∃ a, (a, o) ∈ made ∧ s.settle x v = .operand (.op a)) :
    Tracked first (named ++ [x]) (Function.update objects x w) made (s.bind x v) := by
  constructor
  case valid => exact Run.valid_bind h.valid _ _
  case next => exact h.next
  case unnamed =>
    intro y hy
    rw [List.mem_append, List.mem_singleton, not_or] at hy
    rw [Run.find?_bind_of_ne h.valid hy.2, Function.update_of_ne hy.2]
    exact h.unnamed y hy.1
  case below => exact List.forall_mem_append.2 ⟨h.below, List.forall_mem_singleton.2 hbelow⟩
  case origin =>
    intro y i hy
    by_cases hyx : y = x
    · rw [hyx, Function.update_self] at hy
      rcases horigin i hy with hi | rfl
      · rwa [Function.update_of_ne (h.ne_of_not_mem hx hi)]
      · rwa [Function.update_self]
    · rw [Function.update_of_ne hyx] at hy
      have hi := h.origin y i hy
      rwa [Function.update_of_ne (h.ne_of_not_mem hx hi)]
  case object =>
    intro y i hy
    rw [h.resolve_bind hbelow] at hy
    split_ifs at hy with hyx
    · rw [hyx, Function.update_self]
      exact hobject i hy
    · rw [Function.update_of_ne hyx]
      exact h.object y i hy
  case value =>
    intro y i hy
    rw [h.resolve_bind hbelow]
    split_ifs with hyx
    · rw [hyx, Function.update_self] at hy
      exact hvalue i hy
    · rw [Function.update_of_ne hyx] at hy
      exact h.value y i hy
  case allocated =>
    intro p hp
    have hi := h.allocated p hp
    rwa [Function.update_of_ne (h.ne_of_not_mem hx hi)]

/-- The log and the counters do not matter. -/
theorem congr (h : Tracked first named objects made s) (hbindings : s'.bindings = s.bindings)
    (hnext : s'.nextId = s.nextId) : Tracked first named objects made s' := by
  have hresolve : ∀ y, s'.resolve y = s.resolve y := fun y =>
    Run.resolve_congr (by rw [hbindings])
  constructor
  case valid =>
    rw [hbindings]
    exact h.valid
  case next =>
    rw [hnext]
    exact h.next
  case unnamed =>
    rw [hbindings]
    exact h.unnamed
  case object =>
    intro y o
    rw [hresolve]
    exact h.object y o
  case value =>
    intro y o
    rw [hresolve]
    exact h.value y o
  case below => exact h.below
  case origin => exact h.origin
  case allocated => exact h.allocated

/-- What an operand is to stand for when it is made to stand for another one. -/
theorem settle_operand (h : Tracked first named objects made s) (hx : x ∉ named)
    (hy : objects y = some o) : s.settle x (.operand y) = s.resolve y :=
  if_neg (h.ne_of_not_mem hx hy)

theorem equate (h : Tracked first named objects made s) (hx : x ∉ named)
    (hbelow : x.Below first) (y : Operand) :
    Tracked first (named ++ [x]) (Function.update objects x (objects y)) made
      (s.bind x (.operand y)) := by
  refine h.define hx hbelow (.operand y) (objects y) (fun o ho => ?_)
    (fun o ho => Or.inl (h.origin y o ho)) (fun o ho => ?_)
  · by_cases hyx : y = x
    · rw [Run.settle, if_pos hyx] at ho
      cases ho
    · rw [Run.settle, if_neg hyx] at ho
      exact h.object y o ho
  · rw [h.settle_operand hx ho]
    exact h.value y o ho

theorem postpone (h : Tracked first named objects made s) (hx : .op o ∉ named)
    (ho : o < first) :
    Tracked first (named ++ [.op o]) (Function.update objects (.op o) (some o)) made
      (s.bind (.op o) (.blank o)) := by
  refine h.define hx ho (.blank o) (some o) (fun i hi => hi) (fun i hi => ?_) fun i hi => Or.inl hi
  rw [Option.some.inj hi]
  exact Or.inr rfl

theorem rebound_record (h : Tracked first named objects made s) (stored : Value) :
    Rebound o x (.written o stored) s (s.bindObject o x (.written o stored)) := fun y =>
  Run.find?_bindObject (v := .written o stored) h.valid (fun _ hz => nomatch hz) y

/-- A write is recorded on an object. -/
theorem record (h : Tracked first named objects made s) (hx : (s.resolve x).origin? = some o)
    (stored : Value) :
    Tracked first named objects made (s.bindObject o x (.written o stored)) := by
  refine h.rebound (h.object x o hx) (h.rebound_record stored) (Run.valid_bindObject h.valid _ _ _)
    ?_ (List.Subset.refl _) (fun p hp => Or.inl hp) (Or.inl rfl)
  rw [Run.nextId_bindObject]
  exact h.next

end Tracked

theorem Forces.tracked {xs : List Operand} (h : Forces [] xs s s' made')
    (ht : Tracked first named objects made s) :
    Tracked first named objects (made ++ made') s' := by
  induction h generalizing made with
  | nil => rwa [List.append_nil]
  | skip _ _ ih => exact ih ht
  | force hx hid _ ih =>
    rw [List.append_cons]
    exact ih (ht.force hx hid)

/-- **Operands keep standing for their objects.** -/
theorem Served.tracked {r : Request} (h : Served r s s' made')
    (ht : Tracked first named objects made s) (hr : ∀ x ∈ r.name?, x ∉ named ∧ x.Below first) :
    Tracked first (named ++ r.name?.toList) (r.track objects) (made ++ made') s' := by
  cases h with
  | @equate x y =>
    obtain ⟨hx, hbelow⟩ := hr x rfl
    rw [List.append_nil]
    exact ht.equate hx hbelow y
  | @forward op _ _ _ hop =>
    have hs : Tracked first named objects made (s.enter .allocationSinking op) := ht.congr rfl rfl
    cases hop with
    | postpone hk =>
      have hname : (Request.forward op).name? = some op.result := if_pos hk
      obtain ⟨hx, hbelow⟩ := hr op.result hname
      rw [hname, Request.track_of_new hk, List.append_nil]
      exact (hs.postpone hx hbelow).congr rfl rfl
    | @absorb _ x y o _ hk harg hx harg' =>
      have hnew : op.kind ≠ .new := by rw [hk]; decide
      have hs' : Tracked first named objects made ((s.enter .allocationSinking op).note
          (.absorbed op (.written o (s.resolve y)))) := hs.congr rfl rfl
      rw [Request.name?_of_ne hnew, Request.track_of_ne hnew, List.append_nil, Option.toList_none,
        List.append_nil]
      exact (hs'.record hx _).congr rfl rfl
    | force hk hset hargs h =>
      cases h with
      | emit =>
        rw [Request.name?_of_ne hk, Request.track_of_ne hk, List.append_nil, Option.toList_none,
          List.append_nil]
        exact (hargs.tracked hs).congr rfl rfl

end

theorem tracked_start [Hashable Operand] (first : OpId) :
    Tracked first [] (objectOf []) [] (Run.start first) := by
  have hresolve : ∀ x, ((Run.start first).resolve x).origin? = none := by
    intro x
    cases x <;> rfl
  refine ⟨HashTrie.valid_empty, Nat.le_refl _, fun x _ => ⟨rfl, rfl⟩, fun _ h => (nomatch h),
    fun _ _ h => (nomatch h), fun x o h => ?_, fun _ _ h => (nomatch h), fun _ h => (nomatch h)⟩
  rw [hresolve] at h
  cases h

/-- Requests before which others may be made. -/
theorem Orderly.of_append {first : OpId} {rs rest : List Request} (h : Orderly first (rs ++ rest)) :
    Orderly first rs := by
  obtain ⟨hdistinct, hbelow⟩ := h
  rw [List.filterMap_append] at hdistinct hbelow
  exact ⟨hdistinct.of_append_left, (List.forall_mem_append.1 hbelow).1⟩

/-- A request gives a meaning to an operand that has none. -/
theorem Orderly.name_new {first : OpId} {rs : List Request} {r : Request}
    (h : Orderly first (rs ++ [r])) :
    ∀ x ∈ r.name?, x ∉ rs.filterMap Request.name? ∧ x.Below first := by
  intro x hx
  obtain ⟨hdistinct, hbelow⟩ := h
  have hlast : [r].filterMap Request.name? = [x] := by
    rw [List.filterMap_cons_some hx, List.filterMap_nil]
  rw [List.filterMap_append, hlast] at hdistinct hbelow
  refine ⟨fun hmem => ?_, hbelow x (List.mem_append_right _ List.mem_cons_self)⟩
  exact (List.nodup_append.1 hdistinct).2.2 x hmem x List.mem_cons_self rfl

/-- **All along a session**, operands that stand for an object are that object or an allocation made
for it. -/
theorem Session.tracked [Hashable Operand] {first : OpId} {rs : List Request} {s : Run}
    {made : Allocations} (h : Session rs (Run.start first) s made) (hrs : Orderly first rs) :
    Tracked first (rs.filterMap Request.name?) (objectOf rs) made s := by
  induction rs using List.reverseRecOn generalizing s made with
  | nil =>
    cases h
    exact tracked_start first
  | append_singleton rs r ih =>
    obtain ⟨s₁, made₁, made₂, hbefore, hlast, rfl⟩ := h.split
    cases hlast with
    | cons _ hr hnil =>
      cases hnil
      rw [List.append_nil, objectOf_append_singleton, List.filterMap_append]
      have hs := hr.tracked (ih hbefore hrs.of_append) hrs.name_new
      cases hname : r.name? with
      | none =>
        rw [hname] at hs
        rwa [List.filterMap_cons_none hname]
      | some x =>
        rw [hname] at hs
        rwa [List.filterMap_cons_some hname]

end TraceOpt
