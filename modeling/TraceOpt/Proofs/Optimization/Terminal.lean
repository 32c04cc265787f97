import Mathlib.Data.List.Induction
import TraceOpt.Proofs.Optimization.State
import TraceOpt.Trace.Hash

/-!
# When one look-up is enough

An operand that is bound to another one is looked up once: what it is bound to should stand for
itself.  Binding resolves the other operand first, but only as it is at that time.  If the other
operand is bound later on, those that stand for it are left behind, and a single look-up gives an
operand that is known to be something else.

* `Run.Terminal`: operands that others are bound to stand for themselves.
* `Run.Terminal.bind_iff`: one binding keeps that up just if it leaves no operand behind.
* `bindAll_terminal_iff`: so it is for bindings one after another, at every point.
* `chained_not_terminal`: two bindings of which the second leaves an operand behind.
-/

namespace TraceOpt

namespace Run

/-- Binds operands to values, one after another. -/
def bindAll [Hashable Operand] (s : Run) (bs : List (Operand × Value)) : Run :=
  bs.foldl (fun s b => s.bind b.1 b.2) s

variable (s : Run)

/-- Operands that others are bound to stand for themselves, so that one look-up gives the final
value. -/
def Terminal [Hashable Operand] : Prop :=
  ∀ x y, s.bindings.find? x = some (.operand y) → y ≠ x → s.resolve y = .operand y

/-- Binding `x` to `v` leaves an operand behind: another one is bound to `x`, and `x` will no longer
stand for itself. -/
def LeavesBehind [Hashable Operand] (x : Operand) (v : Value) : Prop :=
  s.settle x v ≠ .operand x ∧ ∃ z, z ≠ x ∧ s.bindings.find? z = some (.operand x)

variable [Hashable Operand]

@[simp] theorem bindAll_nil : s.bindAll [] = s := rfl

@[simp] theorem bindAll_append_singleton (bs : List (Operand × Value)) (x : Operand) (v : Value) :
    s.bindAll (bs ++ [(x, v)]) = (s.bindAll bs).bind x v := by
  simp [bindAll]

variable {s} {x y : Operand} {v : Value}

theorem valid_bindAll (hs : s.bindings.Valid) (bs : List (Operand × Value)) :
    (s.bindAll bs).bindings.Valid := by
  induction bs using List.reverseRecOn with
  | nil => exact hs
  | append_singleton bs b ih =>
    rw [bindAll_append_singleton]
    exact valid_bind ih b.1 b.2

/-- What an operand resolves to stands for itself, if it is an operand. -/
theorem Terminal.resolve_resolve (h : s.Terminal) (hx : s.resolve x = .operand y) :
    s.resolve y = .operand y := by
  rcases s.resolve_cases x with ⟨n, -, hn⟩ | hbound | ⟨-, hself⟩
  · rw [hn] at hx
    cases hx
  · by_cases hyx : y = x
    · rw [hyx] at hx ⊢
      exact hx
    · rw [hx] at hbound
      exact h x y hbound hyx
  · obtain rfl : x = y := Value.operand.inj (hself.symm.trans hx)
    exact hself

/-- What is stored for an operand stands for itself, if it is another operand. -/
theorem Terminal.resolve_settle (h : s.Terminal) (hv : s.settle x v = .operand y) (hyx : y ≠ x) :
    s.resolve y = .operand y := by
  unfold settle at hv
  split at hv
  · next z =>
    split_ifs at hv with hzx
    · exact absurd ((Value.operand.inj hv).symm.trans hzx) hyx
    · exact h.resolve_resolve hv
  · next hne => exact absurd hv (hne y)

theorem resolve_bind_self (hs : s.bindings.Valid) (hx : ∀ n, x ≠ .const n) :
    (s.bind x v).resolve x = s.settle x v := by
  have hfind := find?_bind hs x v x
  rw [if_pos rfl] at hfind
  rcases (s.bind x v).resolve_cases x with ⟨n, hn, -⟩ | hbound | ⟨hnone, -⟩
  · exact absurd hn (hx n)
  · exact Option.some.inj (hbound.symm.trans hfind)
  · rw [hfind] at hnone
    cases hnone

/-- **One binding keeps bindings terminal just if it leaves no operand behind.** -/
theorem Terminal.bind_iff (h : s.Terminal) (hs : s.bindings.Valid) :
    (s.bind x v).Terminal ↔ ¬ s.LeavesBehind x v := by
  constructor
  · rintro hterminal ⟨hsettle, z, hzx, hz⟩
    have hself := h z x hz (Ne.symm hzx)
    have hx : ∀ n, x ≠ .const n := by
      rintro n rfl
      cases hself
    rw [← find?_bind_of_ne (v := v) hs hzx] at hz
    have hresolve := hterminal z x hz (Ne.symm hzx)
    rw [resolve_bind_self hs hx] at hresolve
    exact hsettle hresolve
  · intro hnone z y hz hyz
    rw [find?_bind hs] at hz
    by_cases hxz : x = z
    · -- the binding itself: its target stood for itself and is not touched
      rw [if_pos hxz] at hz
      rw [← hxz] at hyz
      rw [resolve_bind_of_ne hs hyz]
      exact h.resolve_settle (Option.some.inj hz) hyz
    · rw [if_neg hxz] at hz
      have hself := h z y hz hyz
      by_cases hyx : y = x
      · rw [hyx] at hz hself ⊢
        have hx : ∀ n, x ≠ .const n := by
          rintro n rfl
          cases hself
        rw [resolve_bind_self hs hx]
        by_contra hsettle
        exact hnone ⟨hsettle, z, Ne.symm hxz, hz⟩
      · rwa [resolve_bind_of_ne hs hyx]

theorem terminal_start (nextId : OpId) : (start nextId).Terminal := by
  intro x y hx
  cases hx

end Run

/-- **When bindings are terminal at every point**: just if each of them leaves no operand behind,
in the state that those before it lead to. -/
theorem bindAll_terminal_iff [Hashable Operand] (nextId : OpId) (bs : List (Operand × Value)) :
    (∀ done, done <+: bs → ((Run.start nextId).bindAll done).Terminal) ↔
      ∀ done x v, done ++ [(x, v)] <+: bs →
        ¬ ((Run.start nextId).bindAll done).LeavesBehind x v := by
  have hvalid := Run.valid_bindAll (s := Run.start nextId) HashTrie.valid_empty
  constructor
  · intro hterminal done x v hdone
    have hnext := hterminal (done ++ [(x, v)]) hdone
    rw [Run.bindAll_append_singleton] at hnext
    exact ((hterminal done ((List.prefix_append _ _).trans hdone)).bind_iff (hvalid done)).1 hnext
  · intro hnone done hdone
    induction done using List.reverseRecOn with
    | nil => exact Run.terminal_start nextId
    | append_singleton done b ih =>
      rw [Run.bindAll_append_singleton]
      exact ((ih ((List.prefix_append _ _).trans hdone)).bind_iff (hvalid done)).2
        (hnone done b.1 b.2 hdone)

/-! ### An operand that is left behind -/

/-- The result of one operation is made the same as that of another, which is then made known. -/
def chained : List (Operand × Value) := [(.op 1, .operand (.op 2)), (.op 2, .constant 5)]

/-- **Bindings need not be terminal**, even if no literal is bound: after `chained` the first result
still stands for the second, which is known to be 5. -/
theorem chained_not_terminal :
    ((Run.start 10).bindAll chained).bindings.find? (.op 1) = some (.operand (.op 2)) ∧
      ((Run.start 10).bindAll chained).resolve (.op 2) = .constant 5 ∧
      ¬ ∀ (nextId : OpId) (bs : List (Operand × Value)), (∀ b ∈ bs, ∀ n, b.1 ≠ .const n) →
        ((Run.start nextId).bindAll bs).Terminal := by
  have hfind : ((Run.start 10).bindAll chained).bindings.find? (.op 1) =
      some (.operand (.op 2)) := by decide +kernel
  have hresolve : ((Run.start 10).bindAll chained).resolve (.op 2) = .constant 5 := by
    decide +kernel
  refine ⟨hfind, hresolve, fun h => ?_⟩
  have hterminal := h 10 chained (by simp [chained]) (.op 1) (.op 2) hfind (by decide)
  rw [hresolve] at hterminal
  cases hterminal

end TraceOpt
