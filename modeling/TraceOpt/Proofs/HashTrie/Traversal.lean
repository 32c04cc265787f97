import Mathlib.Data.List.Forall2
import TraceOpt.Proofs.HashTrie.Walk

/-!
# Walking a map call by call

A walk gives one entry for each call.  Inside a call a loop takes frames off the stack and puts
others on until it finds an entry; the recursive listing of a map knows nothing of this.  The two
agree at every point of a walk: what a walk has yet to give is what the listing has left after the
entries given so far.

* `Frame.search_eq_advance`: the loop ends, within as many rounds as the frames on the stack weigh.
* `Cursor.AtPlace.call`: what one call does to the place of a walk.
* `replay_walks`: what walks have yet to give after any number of calls, copies of walks included.
-/

namespace TraceOpt

namespace HashTrie

universe u v

variable {K : Type u} {V : Type v}

/-! ### The loop of a call -/

/-- What one round of the loop comes to. -/
inductive Round (K : Type u) (V : Type v) where
  /-- Nothing is left on the stack. -/
  | over
  /-- An entry was found, and this is left. -/
  | found (e : K × V) (stack : List (Frame K V))
  /-- A frame was used up, or a node was opened. -/
  | goOn (stack : List (Frame K V))

namespace Frame

/-- One round of the loop: it looks at the first frame only. -/
def round : List (Frame K V) → Round K V
  | [] => .over
  | .entries [] :: rest | .children [] :: rest => .goOn rest
  | .entries (e :: es) :: rest => .found e (.entries es :: rest)
  | .children (.leaf _ k v :: ns) :: rest => .found (k, v) (.children ns :: rest)
  | .children (.bucket _ es :: ns) :: rest => .goOn (.entries es :: .children ns :: rest)
  | .children (.branch _ below :: ns) :: rest => .goOn (.children below :: .children ns :: rest)

/-- What the loop has found after a number of rounds, and what is left; `none` if it still runs. -/
def search : Nat → List (Frame K V) → Option (Option (K × V) × List (Frame K V))
  | 0, _ => none
  | n + 1, stack =>
    match round stack with
    | .over => some (none, [])
    | .found e rest => some (some e, rest)
    | .goOn rest => search n rest

/-- **The loop ends**: every round that finds nothing makes the frames lighter. -/
theorem search_eq_advance {n : Nat} (stack : List (Frame K V)) (hn : listWeight stack < n) :
    search n stack =
      some ((Cursor.advance stack).elim (none, []) fun r => (some r.1, r.2)) := by
  obtain ⟨n, rfl⟩ := Nat.exists_eq_add_one_of_ne_zero (Nat.ne_zero_of_lt hn)
  fun_induction Cursor.advance stack generalizing n with
  | case1 | case3 | case5 => rfl
  | case2 rest ih | case4 rest ih =>
    simp only [listWeight, weight] at hn
    obtain ⟨n, rfl⟩ := Nat.exists_eq_add_one_of_ne_zero (n := n) (by omega)
    exact ih n (by omega)
  | case6 h es ns rest ih | case7 slots below ns rest ih =>
    simp only [listWeight, weight, Node.listWeight, Node.weight] at hn ih
    obtain ⟨n, rfl⟩ := Nat.exists_eq_add_one_of_ne_zero (n := n) (by omega)
    exact ih n (by omega)

end Frame

/-! ### One call after another -/

namespace Cursor

/-- A call: its answer, and the walk after it.  A walk that is over has nothing left to visit. -/
def call (c : Cursor K V) : Option (K × V) × Cursor K V :=
  match c.next with
  | none => (none, ⟨[], c.remaining⟩)
  | some (e, c') => (some e, c')

/-- A walk after a number of calls. -/
def skip (n : Nat) (c : Cursor K V) : Cursor K V := (fun c => c.call.2)^[n] c

/-- A walk that has yet to give the entries of a map from a place on, and counts them. -/
structure AtPlace (m : HashTrie K V) (place : Nat) (c : Cursor K V) : Prop where
  /-- These entries are still pending. -/
  pending : Frame.listPending c.stack = m.toList.drop place
  /-- They are counted. -/
  counted : c.remaining = (m.toList.drop place).length

variable {m : HashTrie K V} {place : Nat} {c : Cursor K V}

/-- What a call comes to, read off the entries that are pending. -/
theorem call_cases (c : Cursor K V) :
    (Frame.listPending c.stack = [] ∧ c.call = (none, ⟨[], c.remaining⟩)) ∨
      ∃ e es stack, Frame.listPending c.stack = e :: es ∧ Frame.listPending stack = es ∧
        c.call = (some e, ⟨stack, c.remaining - 1⟩) := by
  have hadvance := advance_eq c.stack
  unfold call next
  cases hpending : Frame.listPending c.stack with
  | nil =>
    rw [hpending, Option.map_eq_none_iff] at hadvance
    left
    simp [hadvance]
  | cons e es =>
    rw [hpending] at hadvance
    obtain ⟨⟨e', stack⟩, hnext, heq⟩ := Option.map_eq_some_iff.1 hadvance
    obtain ⟨rfl, rfl⟩ := Prod.mk.inj heq
    right
    exact ⟨e', _, stack, rfl, rfl, by simp [hnext]⟩

/-- A call ends the loop with its answer and the stack of the walk after it. -/
theorem search_eq_call (c : Cursor K V) :
    Frame.search (Frame.listWeight c.stack + 1) c.stack = some (c.call.1, c.call.2.stack) := by
  rw [Frame.search_eq_advance _ (Nat.lt_succ_self _), call, next]
  cases advance c.stack <;> rfl

namespace AtPlace

theorem answer (h : AtPlace m place c) : c.call.1 = m.toList[place]? := by
  rw [← List.head?_drop, ← h.pending]
  rcases c.call_cases with ⟨hpending, hcall⟩ | ⟨e, es, stack, hpending, -, hcall⟩
  · rw [hpending, hcall, List.head?_nil]
  · rw [hpending, hcall, List.head?_cons]

/-- **A call moves a walk on by one place.** -/
theorem call (h : AtPlace m place c) : AtPlace m (place + 1) c.call.2 := by
  have hdrop : m.toList.drop (place + 1) = (Frame.listPending c.stack).tail := by
    rw [h.pending, List.tail_drop]
  rcases c.call_cases with ⟨hpending, hcall⟩ | ⟨e, es, stack, hpending, hstack, hcall⟩
  · rw [hpending, List.tail_nil] at hdrop
    rw [hcall]
    refine ⟨hdrop.symm, ?_⟩
    rw [h.counted, ← h.pending, hpending, hdrop]
  · rw [hpending, List.tail_cons] at hdrop
    rw [hcall]
    refine ⟨hstack.trans hdrop.symm, ?_⟩
    rw [h.counted, ← h.pending, hpending, hdrop, List.length_cons, Nat.add_sub_cancel]

/-- The entries to come are counted down from a positive number. -/
theorem remaining_eq (h : AtPlace m place c) (hanswer : c.call.1.isSome = true) :
    c.remaining = c.call.2.remaining + 1 := by
  rcases c.call_cases with ⟨-, hcall⟩ | ⟨e, es, stack, hpending, -, hcall⟩
  · rw [hcall] at hanswer
    cases hanswer
  · rw [hcall, h.counted, ← h.pending, hpending, List.length_cons, Nat.add_sub_cancel]

theorem skip (h : AtPlace m place c) (n : Nat) : AtPlace m (place + n) (c.skip n) := by
  induction n with
  | zero => exact h
  | succ n ih =>
    rw [Cursor.skip, Function.iterate_succ_apply']
    exact ih.call

end AtPlace

end Cursor

theorem atPlace_cursor {m : HashTrie K V} (hsize : m.size = m.toList.length) :
    m.cursor.AtPlace m 0 :=
  ⟨listPending_cursor m, hsize⟩

/-! ### Walks that are copied -/

/-- A request to walks over one map, which are numbered in the order in which they began. -/
inductive Request where
  /-- Calls a walk for its next entry. -/
  | next (walk : Nat)
  /-- Begins a walk where another one stands. -/
  | copy (walk : Nat)

namespace Request

variable {α : Type u} {β : Type v}

/-- Where walks stand after a request, if a call takes a walk from one standing to another. -/
def serve (called : α → α) (walks : List α) : Request → List α
  | next i => walks.modify i called
  | copy i => walks ++ walks[i]?.toList

/-- Where walks stand after requests, first request first, if one walk has begun before. -/
def serveAll (called : α → α) (start : α) (requests : List Request) : List α :=
  requests.foldl (serve called) [start]

theorem forall₂_serve {R : α → β → Prop} {f : α → α} {g : β → β}
    (hstep : ∀ a b, R a b → R (f a) (g b)) {as : List α} {bs : List β}
    (h : List.Forall₂ R as bs) (r : Request) : List.Forall₂ R (r.serve f as) (r.serve g bs) := by
  cases r with
  | next i =>
    change List.Forall₂ R (as.modify i f) (bs.modify i g)
    induction h generalizing i with
    | nil => simp
    | @cons a b as bs hab h ih =>
      cases i with
      | zero => exact .cons (hstep a b hab) h
      | succ i => exact .cons hab (ih i)
  | copy i =>
    refine List.rel_append h ?_
    induction h generalizing i with
    | nil => exact .nil
    | cons hab h ih =>
      cases i with
      | zero => exact .cons hab .nil
      | succ i => exact ih i

/-- Two views of walks that begin alike and that calls keep alike stay so, whatever is copied. -/
theorem forall₂_serveAll {R : α → β → Prop} {f : α → α} {g : β → β}
    (hstep : ∀ a b, R a b → R (f a) (g b)) {a : α} {b : β} (hstart : R a b)
    (requests : List Request) : List.Forall₂ R (serveAll f a requests) (serveAll g b requests) := by
  induction requests using List.reverseRecOn with
  | nil => exact .cons hstart .nil
  | append_singleton requests r ih =>
    rw [serveAll, serveAll, List.foldl_append, List.foldl_append]
    exact forall₂_serve hstep ih r

end Request

/-! ### Walks and listings -/

/-- A walk that follows the listing of a map from a place on. -/
structure Cursor.Follows (m : HashTrie K V) (place : Nat) (c : Cursor K V) : Prop where
  /-- Calls give the entries from that place on, in order, and after the last entry nothing. -/
  answers : ∀ k, (c.skip k).call.1 = m.toList[place + k]?
  /-- The walk knows how many entries are to come. -/
  remaining_eq : c.remaining = (m.toList.drop place).length
  /-- A call that gives an entry leaves one entry less to come. -/
  counts_down : c.call.1.isSome = true → c.remaining = c.call.2.remaining + 1
  /-- The loop of a call ends. -/
  call_ends :
    Frame.search (Frame.listWeight c.stack + 1) c.stack = some (c.call.1, c.call.2.stack)

theorem Cursor.AtPlace.follows {m : HashTrie K V} {place : Nat} {c : Cursor K V}
    (h : c.AtPlace m place) : c.Follows m place where
  answers k := (h.skip k).answer
  remaining_eq := h.counted
  counts_down := h.remaining_eq
  call_ends := c.search_eq_call

/-- **Walks follow the listing of a map.**  After any history of updates, and whatever the hash
function, a map counts its entries; a walk over it that was called `n` times follows the listing
from place `n` on; and so does every walk among several that are called and copied in any order,
from the place on at which it stands: as many places on as it was called, counted from the place of
the walk of which it is a copy. -/
theorem replay_walks [BEq K] [Hashable K] (history : List (Update K V)) :
    (replay history).size = (replay history).toList.length ∧
      (∀ n, ((replay history).cursor.skip n).Follows (replay history) n) ∧
      ∀ requests, List.Forall₂ (Cursor.Follows (replay history))
        (Request.serveAll (· + 1) 0 requests)
        (Request.serveAll (fun c => c.call.2) (replay history).cursor requests) := by
  have hsize := size_replay history
  have hstart := atPlace_cursor hsize
  refine ⟨hsize, fun n => ?_, fun requests => ?_⟩
  · have hplace := hstart.skip n
    rw [Nat.zero_add] at hplace
    exact hplace.follows
  · have hplaces := Request.forall₂_serveAll (R := Cursor.AtPlace (replay history))
      (fun place c h => h.call) hstart requests
    exact hplaces.imp fun place c h => h.follows

end HashTrie

end TraceOpt
