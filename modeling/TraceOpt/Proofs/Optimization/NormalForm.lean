import TraceOpt.Proofs.Optimization.Emission
import TraceOpt.Proofs.Optimization.FreshIds
import TraceOpt.Trace.Hash

/-!
# Normal form

What all built-in stages leave behind gives them nothing more to do.  No integer operation is on
literals only and no guard is on a literal; an operand that a guard has checked is not used any
more; and all allocations are made for the operation that follows them, in the order in which it
uses them.

* `Residual`: an operation that gives stages nothing to do, after the operations before it.
* `Normal`: operations that are all like that.
* `Pristine`: what stands in the output for operands that are still to be used has not been checked.
* `Released.normal`, `Feeds.normal`: what all stages leave in the output is in normal form.
* `Reduced`, `optimizeWith_release_reduced`: what this says of the places of the output.
-/

namespace TraceOpt

/-- Whether an operand is an integer literal. -/
def Operand.isLiteral : Operand → Bool
  | .const _ => true
  | _ => false

/-- An operation that gives stages nothing to do, after those seen. -/
structure Residual (seen : List Operation) (op : Operation) : Prop where
  /-- An integer operation has an argument that is no literal. -/
  arithmetic : op.kind ∈ Kind.arithmetic → ∃ x ∈ op.args, x.isLiteral = false
  /-- A guard checks no literal. -/
  guard : op.kind ∈ Kind.guards → ∀ x ∈ op.args, x.isLiteral = false
  /-- What a guard has checked is not used. -/
  unchecked : ∀ x ∈ op.args, ¬ Guarded seen x
  /-- At an operation that does not allocate, all objects escape that have not, in order. -/
  escape : op.kind ≠ .new → leaving (unescaped seen) op = unescaped seen
  /-- An operation that allocates has the type of one. -/
  type : op.kind = .new → op.type = some .ref

/-- Operations that, after those seen, give stages nothing to do. -/
def NormalFrom (seen : List Operation) : List Operation → Prop
  | [] => True
  | op :: ops => Residual seen op ∧ NormalFrom (seen ++ [op]) ops

/-- Operations that give stages nothing to do, and among which all objects escape. -/
structure Normal (ops : List Operation) : Prop where
  /-- Each operation gives stages nothing to do. -/
  residual : NormalFrom [] ops
  /-- All objects escape. -/
  escaped : unescaped ops = []

/-- What normal form says of the places of some operations. -/
structure Reduced (ops : List Operation) : Prop where
  /-- No integer operation is on literals only. -/
  arithmetic : ∀ op ∈ ops, op.kind ∈ Kind.arithmetic → ∃ x ∈ op.args, x.isLiteral = false
  /-- No guard is on a literal. -/
  guard : ∀ op ∈ ops, op.kind ∈ Kind.guards → ∀ x ∈ op.args, x.isLiteral = false
  /-- What a guard has checked is not used after it. -/
  checked : ∀ before g between op after, ops = before ++ g :: (between ++ op :: after) →
    g.kind ∈ Kind.guards → ∀ y ∈ g.args, y ∉ op.args
  /-- What is allocated is used by the next operation that does not allocate. -/
  allocation : ∀ before a after, ops = before ++ a :: after → a.kind = .new →
    ∃ op, after.find? (·.kind ≠ .new) = some op ∧ a.result ∈ op.args

/-- What stands in the output for inputs and results seen has not been checked there. -/
def Pristine [Hashable Operand] (seen : List Operation) (s : Run) : Prop :=
  ∀ x y, x.DefinedIn seen → s.resolve x = .operand y → ¬ Guarded s.output.toList y

section

variable {base : Nat} {seen ops a b : List Operation} {live : List OpId}
  {made made' : Allocations} {s s₀ s₁ s' : Run} {op : Operation} {args : List Operand}
  {x y z : Operand} {o : OpId}

/-! ### Operations in normal form -/

theorem normalFrom_append :
    NormalFrom seen (a ++ b) ↔ NormalFrom seen a ∧ NormalFrom (seen ++ a) b := by
  induction a generalizing seen with
  | nil => simp [NormalFrom]
  | cons op a ih => simp [NormalFrom, ih, and_assoc]

theorem normalFrom_append_singleton :
    NormalFrom [] (ops ++ [op]) ↔ NormalFrom [] ops ∧ Residual ops op := by
  rw [normalFrom_append, List.nil_append]
  exact and_congr_right fun _ => and_iff_left trivial

theorem NormalFrom.exists_residual (h : NormalFrom seen ops) (hop : op ∈ ops) :
    ∃ before, Residual before op := by
  obtain ⟨before, after, rfl⟩ := List.append_of_mem hop
  exact ⟨seen ++ before, (normalFrom_append.1 h).2.1⟩

theorem NormalFrom.not_guarded (h : NormalFrom seen ops) (hx : x.isLiteral = true) :
    ¬ Guarded ops x := by
  rintro ⟨g, hg, hk, harg⟩
  obtain ⟨before, hresidual⟩ := h.exists_residual hg
  rw [hresidual.guard hk x harg] at hx
  cases hx

theorem guarded_append_singleton :
    Guarded (ops ++ [op]) x ↔ Guarded ops x ∨ op.kind ∈ Kind.guards ∧ x ∈ op.args := by
  simp [Guarded, or_and_right, exists_or]

/-- Allocations check nothing. -/
theorem guarded_append_allocated :
    Guarded (ops ++ made.map allocated) x ↔ Guarded ops x := by
  have hnot : ∀ p : OpId × OpId, (allocated p).kind ∉ Kind.guards := fun p => by
    change Kind.new ∉ Kind.guards
    decide
  simp [Guarded, or_and_right, exists_or, hnot]

/-- Allocations add their objects to the list of the scan. -/
theorem unescaped_append_allocated :
    unescaped (ops ++ made.map allocated) = unescaped ops ++ made.map Prod.fst := by
  induction made using List.reverseRecOn with
  | nil => simp
  | append_singleton made p ih =>
    rw [List.map_append, ← List.append_assoc, List.map_singleton, unescaped_append_singleton, ih,
      List.map_append, ← List.append_assoc]
    rfl

theorem NormalFrom.append_allocated (h : NormalFrom [] ops) :
    NormalFrom [] (ops ++ made.map allocated) := by
  induction made using List.reverseRecOn with
  | nil => simpa using h
  | append_singleton made p ih =>
    rw [List.map_append, ← List.append_assoc, List.map_singleton, normalFrom_append_singleton]
    refine ⟨ih, ?_, ?_, fun _ hx => (nomatch hx), fun hk => absurd rfl hk, fun _ => rfl⟩
    · exact fun hk => absurd (show Kind.new ∈ Kind.arithmetic from hk) (by decide)
    · exact fun hk => absurd (show Kind.new ∈ Kind.guards from hk) (by decide)

/-- An operation that gives stages nothing to do leaves no object behind. -/
theorem Residual.unescaped_eq_nil (h : Residual seen op) (hk : op.kind ≠ .new) :
    unescaped (seen ++ [op]) = [] := by
  rw [unescaped_append_singleton, remaining_of_ne hk, h.escape hk]
  simp

theorem Normal.append (h : NormalFrom [] ops) (hop : Residual ops op) (hk : op.kind ≠ .new) :
    Normal (ops ++ [op]) :=
  ⟨normalFrom_append_singleton.2 ⟨h, hop⟩, hop.unescaped_eq_nil hk⟩

/-- What a guard has checked has escaped. -/
theorem not_guarded_of_mem_unescaped (hdistinct : (ops.map (·.id)).Nodup) (hscope : Scoped [] ops)
    (ho : o ∈ unescaped ops) : ¬ Guarded ops (.op o) := by
  induction ops using List.reverseRecOn with
  | nil => cases ho
  | append_singleton ops op ih =>
    rw [List.map_append, List.nodup_append] at hdistinct
    obtain ⟨hdistinct, -, hne⟩ := hdistinct
    obtain ⟨hscope, hargs⟩ := scoped_append.1 hscope
    rw [guarded_append_singleton, not_or]
    rw [unescaped_append_singleton] at ho
    by_cases hk : op.kind = .new
    · refine ⟨?_, fun hg => Kind.ne_new_of_mem_guards hg.1 hk⟩
      rw [remaining, if_pos hk, List.mem_append, List.mem_singleton] at ho
      rcases ho with ho | rfl
      · exact ih hdistinct hscope ho
      · rintro ⟨g, hg, -, harg⟩
        obtain ⟨d, hd, -, hid⟩ := hscope.definedIn hg harg
        exact hne _ (List.mem_map_of_mem hd) _ (List.mem_singleton_self _) hid
    · rw [remaining_of_ne hk, List.mem_filter, decide_eq_true_eq] at ho
      refine ⟨ih hdistinct hscope ho.1, ?_⟩
      rintro ⟨hguard, harg⟩
      refine ho.2 (mem_leaving_iff.2 ⟨hk, fun hwrites => ?_, ho.1, harg⟩)
      rw [hwrites.1] at hguard
      exact absurd hguard (by decide)

/-! ### Arguments that are allocated in the order of their use -/

theorem forall₂_eraseDups {α β : Type} [BEq α] [LawfulBEq α] [BEq β] [LawfulBEq β]
    {R : α → β → Prop} (hR : ∀ {a b a' b'}, R a b → R a' b' → (a = a' ↔ b = b'))
    {as : List α} {bs : List β} (h : List.Forall₂ R as bs) :
    List.Forall₂ R as.eraseDups bs.eraseDups := by
  match as, bs, h with
  | [], [], .nil => exact .nil
  | a :: as, b :: bs, .cons hab h =>
    rw [List.eraseDups_cons, List.eraseDups_cons]
    have hfilter :
        List.Forall₂ R (as.filter fun a' => !a' == a) (bs.filter fun b' => !b' == b) := by
      refine List.rel_filter ?_ h
      intro a' b' hab'
      simpa using not_congr (hR hab' hab)
    exact .cons hab (forall₂_eraseDups hR hfilter)
termination_by as.length
decreasing_by exact Nat.lt_succ_of_le (List.length_filter_le _ _)

/-- Arguments in which allocations stand for the objects of a list, and for nothing else. -/
def Exchanged (live : List OpId) (made : Allocations) (xs ys : List Operand) : Prop :=
  List.Forall₂ (fun x y => Option.Rel (fun o a => (a, o) ∈ made) (x.objectIn? live)
    (y.objectIn? (made.map Prod.fst))) xs ys

namespace Exchanged

theorem not_writesTo (h : Exchanged live made op.args args) (hwrites : ¬ op.WritesTo live) :
    ¬ ({ op with args } : Operation).WritesTo (made.map Prod.fst) := by
  rintro ⟨hset, a, ha, hhead⟩
  obtain ⟨ys, hargs⟩ := List.head?_eq_some_iff.1 hhead
  obtain rfl : args = .op a :: ys := hargs
  obtain ⟨x, xs, hx, -, hxs⟩ := List.forall₂_cons_right_iff.1 h
  rw [Operand.objectIn?_eq_some_iff.2 ⟨rfl, ha⟩] at hx
  cases hobject : x.objectIn? live with
  | none =>
    rw [hobject] at hx
    cases hx
  | some o =>
    obtain ⟨rfl, ho⟩ := Operand.objectIn?_eq_some_iff.1 hobject
    exact hwrites ⟨hset, o, ho, by rw [hxs]; rfl⟩

/-- An operation that uses objects in an order uses their allocations in the same order. -/
theorem leaving_eq (h : Exchanged live made op.args args) (hnodup : (made.map Prod.fst).Nodup)
    (hmade : made.map Prod.snd = leaving live op) (hk : op.kind ≠ .new)
    (hwrites : ¬ op.WritesTo live) :
    leaving (made.map Prod.fst) { op with args } = made.map Prod.fst := by
  have hsnd : (made.map Prod.snd).Nodup := hmade ▸ nodup_leaving live op
  rw [leaving, if_neg (not_or.2 ⟨hk, hwrites⟩)] at hmade
  rw [leaving, if_neg (not_or.2 ⟨hk, h.not_writesTo hwrites⟩)]
  -- allocations and objects correspond one to one
  have hiff : ∀ {o a o' a'}, (a, o) ∈ made → (a', o') ∈ made → (o = o' ↔ a = a') := by
    intro o a o' a' h h'
    constructor
    · rintro rfl
      exact congrArg Prod.fst (List.inj_on_of_nodup_map hsnd h h' rfl)
    · rintro rfl
      exact congrArg Prod.snd (List.inj_on_of_nodup_map hnodup h h' rfl)
  have huses := forall₂_eraseDups hiff (List.rel_filterMap (fun _ _ h => h) h)
  rw [← hmade, List.forall₂_map_left_iff] at huses
  have heq : List.Forall₂ (fun p a => p.1 = a) made
      (args.filterMap (Operand.objectIn? (made.map Prod.fst))).eraseDups := by
    refine ((List.forall₂_and_left _ _).2 ⟨fun p hp => hp, huses⟩).imp fun p a hpa => ?_
    have hp : p = (a, p.2) := List.inj_on_of_nodup_map hsnd hpa.1 hpa.2 rfl
    exact congrArg Prod.fst hp
  rw [← List.forall₂_map_left_iff (R := (· = ·)), List.forall₂_eq_eq_eq] at heq
  exact heq.symm

end Exchanged

/-! ### One operation -/

variable [Hashable Operand]

namespace Emission

variable (h : Emission op s s₁ args made') (hinv : Invariant base seen made s)
  (hop : Next base seen op) (hs : Sinking seen live made s.bindings)
  (hnodup : ((made ++ made').map Prod.fst).Nodup)
include h hinv hop hs hnodup

/-- Allocations stand in the output for the objects that escape. -/
theorem exchanged (hlive : ∀ o ∈ live, ¬ Guarded seen (.op o)) :
    Exchanged live made' op.args args := by
  obtain ⟨hmade, hwrites, hs₁⟩ := h.sinks hinv hs
  have hinv₁ := h.invariant hinv
  have hrenamed : ∀ {x y}, x ∈ op.args ∧ s₁.place x = .ok y → Renamed seen (made ++ made') x y :=
    fun hxy => hs₁.renamed_of_place hinv₁ (hop.args _ hxy.1) hxy.2
  refine ((List.forall₂_and_left _ _).2 ⟨fun x hx => hx, h.placed⟩).imp fun x y hxy => ?_
  cases hobject : x.objectIn? live with
  | some o =>
    obtain ⟨rfl, ho⟩ := Operand.objectIn?_eq_some_iff.1 hobject
    have hleaving := mem_leaving_iff.2 ⟨h.kind, hwrites, ho, hxy.1⟩
    rw [← hmade, List.mem_map] at hleaving
    obtain ⟨p, hp, rfl⟩ := hleaving
    rw [(hrenamed hxy).of_object p (List.mem_append_right _ hp) (hlive _ ho) rfl,
      Operand.objectIn?_eq_some_iff.2 ⟨rfl, List.mem_map_of_mem hp⟩]
    exact .some hp
  | none =>
    have hnone : y.objectIn? (made'.map Prod.fst) = none := by
      refine Option.eq_none_iff_forall_ne_some.2 fun a ha => ?_
      obtain ⟨rfl, hmem⟩ := Operand.objectIn?_eq_some_iff.1 ha
      obtain ⟨p, hp, rfl⟩ := List.mem_map.1 hmem
      obtain ⟨q, hq, hqp, rfl⟩ := (hrenamed hxy).of_allocation p (List.mem_append_right _ hp) rfl
      obtain rfl := List.inj_on_of_nodup_map hnodup hq (List.mem_append_right _ hp) hqp
      have hleaving : q.2 ∈ leaving live op := hmade ▸ List.mem_map_of_mem hp
      rw [Operand.objectIn?_eq_some_iff.2 ⟨rfl, (mem_leaving_iff.1 hleaving).2.2.1⟩] at hobject
      cases hobject
    rw [hnone]
    exact .none

omit hop hnodup

/-- An argument that is not known to be an integer does not become a literal. -/
theorem isLiteral_of_place (hx : (s.resolve x).isConstant = false) (hy : s₁.place x = .ok y) :
    y.isLiteral = false := by
  obtain ⟨-, -, hs₁⟩ := h.sinks hinv hs
  have hconstant : (s₁.resolve x).isConstant = false := by
    rw [← Bool.not_eq_true] at hx ⊢
    exact fun hc => hx (h.isConstant_of_resolve hinv hc)
  rcases Run.resolve_of_place hy with ⟨n, hn, -⟩ | hv
  · rw [hn] at hconstant
    cases hconstant
  · rcases hs₁.resolve_operand hv with ⟨rfl, -⟩ | ⟨p, -, -, rfl⟩
    · cases y with
      | const => cases hv
      | input | op => rfl
    · rfl

omit hs

/-- Forcing leaves no operand checked that is still to be used. -/
theorem pristine (hpristine : Pristine seen s) : Pristine seen s₁ := by
  intro x y hx hy
  rw [h.output, guarded_append_allocated]
  rcases h.forces.resolve_cases hinv x with heq | ⟨p, hp, hresolve⟩
  · exact hpristine x y hx (heq.symm.trans hy)
  · -- nothing in the output uses what is only now allocated
    obtain rfl := Value.operand.inj (hy.symm.trans hresolve)
    rintro ⟨g, hg, -, harg⟩
    obtain ⟨d, hd, -, hid⟩ := hinv.output.in_scope.definedIn hg harg
    have hle : s.nextId.toNat ≤ p.1.toNat := (h.forces.numbered.exists_mem_iff.1 ⟨p, hp, rfl⟩).1
    have hlt := hinv.lt_nextId_of_mem_output hd
    rw [hid] at hlt
    omega

include hs hop hnodup

/-- What is emitted gives stages nothing to do. -/
theorem residual (hpristine : Pristine seen s) (hnormal : Normal s.output.toList)
    (hlive : ∀ o ∈ live, ¬ Guarded seen (.op o))
    (hguard : op.kind ∈ Kind.guards → ∀ x ∈ op.args, (s.resolve x).isConstant = false) :
    Residual s₁.output.toList { op with args } := by
  constructor
  case arithmetic =>
    intro hk
    obtain ⟨x, hx, hconstant⟩ := h.unknown hk
    obtain ⟨y, hy, hplace⟩ := Run.exists_placed_of_mem h.placed hx
    exact ⟨y, hy, h.isLiteral_of_place hinv hs hconstant hplace⟩
  case guard =>
    intro hk y hy
    obtain ⟨x, hx, hplace⟩ := Run.exists_of_mem_placed h.placed hy
    exact h.isLiteral_of_place hinv hs (hguard hk x hx) hplace
  case unchecked =>
    intro y hy
    obtain ⟨x, hx, hplace⟩ := Run.exists_of_mem_placed h.placed hy
    rcases Run.resolve_of_place hplace with ⟨n, -, rfl⟩ | hresolve
    · rw [h.output, guarded_append_allocated]
      exact hnormal.residual.not_guarded rfl
    · exact h.pristine hinv hpristine x y (hop.args x hx) hresolve
  case escape =>
    intro hk
    obtain ⟨hmade, hwrites, -⟩ := h.sinks hinv hs
    rw [h.output, unescaped_append_allocated, hnormal.escaped, List.nil_append]
    refine (h.exchanged hinv hop hs hnodup hlive).leaving_eq ?_ hmade hk hwrites
    rw [List.map_append] at hnodup
    exact hnodup.of_append_right
  case type => exact fun hk => absurd hk h.kind

/-- The output is in normal form with the operation, if it was before. -/
theorem normal (hpristine : Pristine seen s) (hnormal : Normal s.output.toList)
    (hlive : ∀ o ∈ live, ¬ Guarded seen (.op o))
    (hguard : op.kind ∈ Kind.guards → ∀ x ∈ op.args, (s.resolve x).isConstant = false) :
    Normal (s₁.output.toList ++ [{ op with args }]) := by
  refine .append ?_ (h.residual hinv hop hs hnodup hpristine hnormal hlive hguard) h.kind
  rw [h.output]
  exact hnormal.residual.append_allocated

omit hop

/-- No other operand stands in the output as the same operand. -/
theorem resolve_inj (hx : x.DefinedIn seen) (hy : y.DefinedIn seen)
    (hxz : s₁.resolve x = .operand z) (hyz : s₁.resolve y = .operand z) : x = y := by
  obtain ⟨-, -, hs₁⟩ := h.sinks hinv hs
  have hinv₁ := h.invariant hinv
  rcases hs₁.resolve_operand hxz with ⟨rfl, -⟩ | ⟨p, hp, rfl, rfl⟩ <;>
    rcases hs₁.resolve_operand hyz with ⟨hzy, -⟩ | ⟨q, hq, rfl, hzq⟩
  · exact hzy
  · exact absurd (hzq ▸ hx) (hinv₁.not_definedIn_of_mem_made hq)
  · exact absurd (hzy ▸ hy) (hinv₁.not_definedIn_of_mem_made hp)
  · rw [List.inj_on_of_nodup_map hnodup hp hq (Operand.op.inj hzq)]

end Emission

/-- Nothing that is not a result in the output is checked there. -/
theorem Invariant.not_guarded (hinv : Invariant base seen made s)
    (hx : ¬ x.DefinedIn s.output.toList) : ¬ Guarded s.output.toList x := by
  rintro ⟨g, hg, -, harg⟩
  exact hx (hinv.output.in_scope.definedIn hg harg)

/-- What is an operand after a binding to something else was that operand before. -/
theorem Run.resolve_operand_of_bind {v : Value} (hs : s.bindings.Valid)
    (hv : ∀ y, v ≠ .operand y) (h : (s.bind x v).resolve z = .operand y) :
    z ≠ x ∧ s.resolve z = .operand y := by
  have hne : z ≠ x := by
    rintro rfl
    have hfind := Run.find?_bind_value (x := z) hs hv z
    rw [if_pos rfl] at hfind
    rcases (s.bind z v).resolve_cases z with ⟨n, -, hn⟩ | hbound | ⟨hnone, -⟩
    · rw [hn] at h
      cases h
    · rw [h, hfind] at hbound
      exact hv y (Option.some.inj hbound)
    · rw [hfind] at hnone
      cases hnone
  exact ⟨hne, (Run.resolve_bind_of_ne hs hne).symm.trans h⟩

theorem Run.resolve_operand_of_absorb {stored : Value} (hs : s.bindings.Valid)
    (h : (s.absorb op o x stored).resolve z = .operand y) : s.resolve z = .operand y := by
  have hv : ∀ y, Value.written o stored ≠ .operand y := fun y hy => nomatch hy
  have hnoted : (s.note (.absorbed op (.written o stored))).bindings.Valid := hs
  have hrecorded : ((s.note (.absorbed op (.written o stored))).bindObject o x
      (.written o stored)).resolve z = .operand y := h
  unfold Run.bindObject at hrecorded
  split_ifs at hrecorded
  · exact (resolve_operand_of_bind hnoted hv hrecorded).2
  · have hx := (resolve_operand_of_bind (valid_bind hnoted _ _) hv hrecorded).2
    exact (resolve_operand_of_bind hnoted hv hx).2

theorem Pristine.congr (h : Pristine seen s) (halike : s.Alike s') : Pristine seen s' := by
  intro x y hx hy
  rw [halike.resolve] at hy
  rw [halike.output]
  exact h x y hx hy

/-- Nothing goes to the output, and the result of the operation is no operand. -/
theorem Pristine.still (h : Pristine seen s) (houtput : s'.output = s.output)
    (hresolve : ∀ x y, s'.resolve x = .operand y →
      (op.kind.hasResult = true → x ≠ op.result) ∧ s.resolve x = .operand y) :
    Pristine (seen ++ [op]) s' := by
  intro x y hx hy
  obtain ⟨hne, hy⟩ := hresolve x y hy
  rw [houtput]
  exact h x y (hx.append_singleton.resolve_right fun hr => hne hr.1 hr.2) hy

/-- The result of the operation becomes something that is no operand. -/
theorem Pristine.settle {v : Value} (h : Pristine seen s) (hs : s.bindings.Valid)
    (hv : ∀ y, v ≠ .operand y) (hbindings : s'.bindings = (s.bind op.result v).bindings)
    (houtput : s'.output = s.output) : Pristine (seen ++ [op]) s' := by
  refine h.still houtput fun x y hy => ?_
  have hbound : (s.bind op.result v).resolve x = .operand y := by
    rw [← hy]
    exact Run.resolve_congr (congrArg (HashTrie.find? · x) hbindings).symm
  obtain ⟨hne, hy⟩ := Run.resolve_operand_of_bind hs hv hbound
  exact ⟨fun _ => hne, hy⟩

namespace Emission

variable (h : Emission op s s₁ args made') (hinv : Invariant base seen made s)
  (hop : Next base seen op) (hpristine : Pristine seen s)
include h hinv hop hpristine

/-- The operation goes to the output, and its result stands for itself. -/
theorem pristine_emit (hk : op.kind ∉ Kind.guards) :
    Pristine (seen ++ [op]) (s₁.emit op args) := by
  have hinv₁ := h.invariant hinv
  intro x y hx hy
  rw [s₁.toList_emit, guarded_append_singleton, not_or]
  refine ⟨?_, fun hg => hk hg.1⟩
  rcases hx.append_singleton with hx | ⟨-, rfl⟩
  · exact h.pristine hinv hpristine x y hx hy
  · -- the result is only now defined
    rcases s₁.resolve_cases op.result with ⟨n, hn, -⟩ | hbound | ⟨-, hself⟩
    · cases hn
    · rw [hinv₁.find?_result hop] at hbound
      cases hbound
    · obtain rfl := Value.operand.inj (hself.symm.trans hy)
      refine hinv₁.not_guarded ?_
      rintro ⟨d, hd, -, hid⟩
      exact hinv₁.id_ne_of_mem_output hop hd hid

/-- The guard goes to the output, and what it checks there stands for nothing any more. -/
theorem pristine_learn (hs : Sinking seen live made s.bindings)
    (hnodup : ((made ++ made').map Prod.fst).Nodup) (hk : op.kind ∈ Kind.guards)
    (hargs : op.args = [x]) (hx : (s.resolve x).isConstant = false) :
    Pristine (seen ++ [op]) ((s₁.emit op args).learn op x) := by
  intro y z hy hz
  have hy' : y.DefinedIn seen := hy.append_singleton.resolve_right fun hr => by
    rw [Kind.hasResult_of_mem_guards hk] at hr
    cases hr.1
  have hlearnt : (s₁.bind x (.constant (Kind.ofTruth op.kind.passes))).resolve y = .operand z := hz
  obtain ⟨hne, hz⟩ := Run.resolve_operand_of_bind (v := .constant _) (h.invariant hinv).valid
    (fun y hy => nomatch hy) hlearnt
  rw [s₁.toList_learn, guarded_append_singleton, not_or]
  refine ⟨h.pristine hinv hpristine y z hy' hz, ?_⟩
  -- the guard checks what stands for its own argument, and no other operand stands as that
  rintro ⟨-, hmem⟩
  refine hne ?_
  obtain ⟨x', hx', hplace⟩ := Run.exists_of_mem_placed h.placed hmem
  rw [hargs, List.mem_singleton] at hx'
  rw [hx'] at hplace
  rcases Run.resolve_of_place hplace with ⟨n, hn, -⟩ | hresolve
  · have hconstant := h.isConstant_of_resolve hinv (x := x) (by rw [hn]; rfl)
    rw [hx] at hconstant
    cases hconstant
  · refine h.resolve_inj hinv hs hnodup hy' (hop.args x ?_) hz hresolve
    rw [hargs]
    exact List.mem_singleton_self x

end Emission

/-- **What one operation leaves in the output** is in normal form if what was there before is. -/
theorem Released.normal (h : Released op s s' made') (hinv : Invariant base seen made s)
    (hop : Next base seen op) (harity : op.HasArity) (hs : Sinking seen live made s.bindings)
    (hnodup : ((made ++ made').map Prod.fst).Nodup) (hlive : ∀ o ∈ live, ¬ Guarded seen (.op o))
    (hnormal : Normal s.output.toList) (hpristine : Pristine seen s) :
    Normal s'.output.toList ∧ Pristine (seen ++ [op]) s' := by
  cases h with
  | @folded n =>
    exact ⟨hnormal, hpristine.settle (v := .constant n) hinv.valid (fun y hy => nomatch hy) rfl rfl⟩
  | elided hk =>
    refine ⟨hnormal, hpristine.still rfl fun x y hy => ⟨fun hresult => ?_, hy⟩⟩
    rw [Kind.hasResult_of_mem_guards hk] at hresult
    cases hresult
  | postponed =>
    exact ⟨hnormal,
      hpristine.settle (v := .blank op.id) hinv.valid (fun y hy => nomatch hy) rfl rfl⟩
  | @absorbed x o stored hk =>
    have houtput : (s.absorb op o x stored).output = s.output := Run.output_bindObject ..
    rw [houtput]
    refine ⟨hnormal, hpristine.still houtput fun z y hy => ⟨fun hresult => ?_, ?_⟩⟩
    · rw [hk] at hresult
      cases hresult
    · exact Run.resolve_operand_of_absorb hinv.valid hy
  | @emitted s₁ args _ h hk =>
    refine ⟨?_, h.pristine_emit hinv hop hpristine hk⟩
    rw [s₁.toList_emit]
    exact h.normal hinv hop hs hnodup hpristine hnormal hlive fun hk' => absurd hk' hk
  | @checked x s₁ args _ h hk harg hx =>
    have hargs := harity.args_eq hk harg
    refine ⟨?_, h.pristine_learn hinv hop hpristine hs hnodup hk hargs hx⟩
    rw [s₁.toList_learn]
    refine h.normal hinv hop hs hnodup hpristine hnormal hlive fun _ y hy => ?_
    rw [hargs, List.mem_singleton] at hy
    rwa [hy]

/-! ### Whole traces -/

/-- **What all stages leave in the output is in normal form.** -/
theorem Feeds.normal (h : Feeds Level.release.passes ops s₀ s made)
    (hstart : Invariant base [] [] s₀) (hs₀ : Sinking [] [] [] s₀.bindings)
    (houtput : s₀.output.toList = []) (hops : Continues base [] ops)
    (harity : ∀ op ∈ ops, op.HasArity) : Normal s.output.toList ∧ Pristine ops s := by
  induction ops using List.reverseRecOn generalizing s made with
  | nil =>
    cases h
    rw [Pristine, houtput]
    exact ⟨⟨trivial, rfl⟩, fun _ _ _ _ hg => nomatch hg⟩
  | append_singleton ops op ih =>
    obtain ⟨hops₁, hops₂⟩ := hops.split
    obtain ⟨harity₁, harity₂⟩ := List.forall_mem_append.1 harity
    have hnodup := h.numbered.nodup
    obtain ⟨s₁, s₂, made₁, made₂, hbefore, halike, hreleased, rfl, hinv, hs, -⟩ :=
      h.exists_released hstart hs₀ hops harity
    obtain ⟨hnormal, hpristine⟩ := ih hbefore hops₁ harity₁
    rw [← halike.output] at hnormal
    exact hreleased.normal hinv hops₂.next (harity₂ op List.mem_cons_self) hs hnodup
      (fun o => not_guarded_of_mem_unescaped hops₁.distinct hops₁.in_scope) hnormal
      (hpristine.congr halike)

/-- **The output of all stages is well-formed and in normal form.** -/
theorem Trace.WellFormed.normal {t out : Trace} {tally : Tally} (ht : t.WellFormed)
    (h : (optimizeWith Level.release.passes t).result = .ok (out, tally)) :
    out.WellFormed ∧ Normal out.ops := by
  obtain ⟨first, log, s, made, hfirst, hfeeds, hinv, hmade, rfl⟩ := ht.exists_feeds h
  obtain ⟨outs, hout, hwoven⟩ := hfeeds.woven HashTrie.valid_empty ht.arity hmade
  have hout : s.output.toList = outs := hout
  rw [← hout] at hwoven
  refine ⟨⟨hinv.output.distinct, hinv.output.in_scope, hwoven.hasArity ht.arity⟩, ?_⟩
  exact (hfeeds.normal (invariant_start hfirst log) sinking_empty rfl
    (ht.continues fun op hop => Trace.lt_idBound hop) ht.arity).1

/-! ### Places in the output -/

omit [Hashable Operand] in
/-- An object that has not escaped does so at the next operation that does not allocate. -/
theorem NormalFrom.exists_use (h : NormalFrom seen ops) (ho : o ∈ unescaped seen)
    (hescaped : unescaped (seen ++ ops) = []) :
    ∃ op, ops.find? (·.kind ≠ .new) = some op ∧ .op o ∈ op.args := by
  induction ops generalizing seen with
  | nil =>
    rw [List.append_nil] at hescaped
    rw [hescaped] at ho
    cases ho
  | cons op ops ih =>
    obtain ⟨hresidual, hrest⟩ := h
    by_cases hk : op.kind = .new
    · have hmem : o ∈ unescaped (seen ++ [op]) := by
        rw [unescaped_append_singleton, remaining, if_pos hk]
        exact List.mem_append_left _ ho
      obtain ⟨d, hd, harg⟩ := ih hrest hmem (by simpa using hescaped)
      exact ⟨d, by simpa [List.find?_cons, hk] using hd, harg⟩
    · have hleaving := ho
      rw [← hresidual.escape hk] at hleaving
      exact ⟨op, by simp [hk], (mem_leaving_iff.1 hleaving).2.2.2⟩

omit [Hashable Operand] in
theorem Normal.reduced (h : Normal ops) : Reduced ops := by
  constructor
  case arithmetic =>
    intro op hop
    obtain ⟨before, hresidual⟩ := h.residual.exists_residual hop
    exact hresidual.arithmetic
  case guard =>
    intro op hop
    obtain ⟨before, hresidual⟩ := h.residual.exists_residual hop
    exact hresidual.guard
  case checked =>
    intro before g between op after hops hg y hy hyop
    have hnormal := h.residual
    rw [hops, ← List.cons_append, ← List.append_assoc] at hnormal
    obtain ⟨hresidual, -⟩ := (normalFrom_append.1 hnormal).2
    exact hresidual.unchecked y hyop ⟨g, by simp, hg, hy⟩
  case allocation =>
    intro before a after hops hk
    have hnormal := h.residual
    have hescaped := h.escaped
    rw [hops, List.append_cons] at hnormal hescaped
    refine (normalFrom_append.1 hnormal).2.exists_use ?_ hescaped
    rw [List.nil_append, unescaped_append_singleton, remaining, if_pos hk]
    exact List.mem_append_right _ (List.mem_singleton_self _)

end

/-- **What all stages leave is reduced**: nothing in it could have been folded or elided, no operand
is used after a guard has checked it, and allocations stand right before their first use. -/
theorem optimizeWith_release_reduced [Hashable Operand] (t out : Trace) (tally : Tally)
    (ht : t.WellFormed) (h : (optimizeWith Level.release.passes t).result = .ok (out, tally)) :
    Reduced out.ops :=
  (ht.normal h).2.reduced

/-! ### An object that is checked -/

/-- An object and an input are checked by guards, which makes a comparison of the two known. -/
def weighed : Trace :=
  ⟨1, [⟨0, .new, [], some .ref⟩,
    ⟨1, .guardTrue, [.op 0], none⟩,
    ⟨2, .intAdd, [.op 0, .input 0], some .int⟩,
    ⟨3, .guardFalse, [.input 0], none⟩,
    ⟨4, .intEq, [.op 0, .input 0], some .int⟩,
    ⟨5, .guardFalse, [.op 4], none⟩,
    ⟨6, .new, [], some .ref⟩,
    ⟨7, .finish, [.op 2, .op 6, .op 0, .input 0], none⟩]⟩

/-- The guard checks the object as the result of its allocation. -/
def weighedOutput : Trace :=
  ⟨1, [⟨8, .new, [], some .ref⟩,
    ⟨1, .guardTrue, [.op 8], none⟩,
    ⟨2, .intAdd, [.const 1, .input 0], some .int⟩,
    ⟨3, .guardFalse, [.input 0], none⟩,
    ⟨9, .new, [], some .ref⟩,
    ⟨7, .finish, [.op 2, .op 9, .const 1, .const 0], none⟩]⟩

/-- The counters of that optimization. -/
def weighedTally : Tally where
  opsIn := 8
  opsOut := 6
  folded := 1
  guardsElided := 1
  guardsKept := 2
  virtualsCreated := 2
  virtualsForced := 2
  stageCounts := [("constant_fold", 8), ("guard_propagation", 7), ("virtualize", 6)]

theorem weighed_reduced :
    weighed.WellFormed ∧
      (optimizeWith Level.release.passes weighed).result = .ok (weighedOutput, weighedTally) ∧
      Reduced weighedOutput.ops := by
  have hwellFormed : weighed.WellFormed := by decide
  have hresult : (optimizeWith Level.release.passes weighed).result =
      .ok (weighedOutput, weighedTally) := by
    decide +kernel
  exact ⟨hwellFormed, hresult,
    optimizeWith_release_reduced weighed weighedOutput weighedTally hwellFormed hresult⟩

end TraceOpt
