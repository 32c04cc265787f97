import TraceOpt.HashTrie.Cursor
import TraceOpt.Proofs.HashTrie.Entries

/-!
# What a cursor walks over

A stack of frames stands for the entries below them, in order.  Taking the next entry off a stack
takes the first of these entries, so that a walk to the end gives all entries of a map.

* `Cursor.advance_eq`: the next entry is the first of those pending.
* `drain_cursor`: a whole walk over a map lists its entries.
* `items`, `items_replay`: what a whole walk gives after any history.
-/

namespace TraceOpt

namespace HashTrie

universe u v

variable {K : Type u} {V : Type v}

/-- The entries that a frame still has to give. -/
def Frame.pending : Frame K V → List (K × V)
  | children rest => Node.listToList rest
  | entries rest => rest

/-- The entries that a stack of frames still has to give. -/
def Frame.listPending (stack : List (Frame K V)) : List (K × V) := stack.flatMap Frame.pending

namespace Cursor

/-- **The next entry is the first of those pending**, and the others stay pending. -/
theorem advance_eq (stack : List (Frame K V)) :
    (advance stack).map (fun r => (r.1, Frame.listPending r.2)) =
      match Frame.listPending stack with
      | [] => none
      | e :: es => some (e, es) := by
  fun_induction advance stack with
  | case1 => rfl
  | case2 rest ih => exact ih
  | case3 e es rest => rfl
  | case4 rest ih => exact ih
  | case5 h k v ns rest => rfl
  | case6 h es ns rest ih =>
    rw [ih]
    simp [Frame.listPending, Frame.pending, Node.listToList, Node.toList]
  | case7 slots below ns rest ih =>
    rw [ih]
    simp [Frame.listPending, Frame.pending, Node.listToList, Node.toList]

/-- A walk of some steps gives the first entries of those pending. -/
theorem take_fst (n : Nat) (c : Cursor K V) :
    (c.take n).1 = (Frame.listPending c.stack).take n := by
  induction n generalizing c with
  | zero => rfl
  | succ n ih =>
    have hnext := advance_eq c.stack
    rw [take, next]
    cases hpending : Frame.listPending c.stack with
    | nil =>
      rw [hpending] at hnext
      rw [Option.map_eq_none_iff.1 hnext]
      rfl
    | cons e es =>
      rw [hpending] at hnext
      obtain ⟨⟨e, stack⟩, hadvance, heq⟩ := Option.map_eq_some_iff.1 hnext
      obtain ⟨rfl, rfl⟩ := Prod.mk.inj heq
      rw [hadvance, List.take_succ_cons, ← ih ⟨stack, c.remaining - 1⟩]
      rfl

end Cursor

theorem listPending_cursor (m : HashTrie K V) : Frame.listPending m.cursor.stack = m.toList := by
  simp [cursor, Frame.listPending, Frame.pending, toList]

/-- **A whole walk lists the entries** of a map that counts them. -/
theorem drain_cursor {m : HashTrie K V} (hsize : m.size = m.toList.length) :
    m.cursor.drain.1 = m.toList := by
  have hremaining : m.cursor.remaining = m.toList.length := hsize
  rw [Cursor.drain, Cursor.take_fst, listPending_cursor, hremaining, List.take_of_length_le]
  omega

/-- The items of a map: the entries that a whole walk over it gives, in order. -/
def items (m : HashTrie K V) : List (K × V) := m.cursor.drain.1

theorem items_replay [BEq K] [Hashable K] (history : List (Update K V)) :
    (replay history).items = (replay history).toList := drain_cursor (size_replay history)

end HashTrie

end TraceOpt
