import TraceOpt.HashTrie.Map

/-!
# Walking a map entry by entry

A cursor is a half-finished walk over a map: a stack of the nodes and entries still to visit and
the number of entries to come.  `Cursor.next` takes one entry and gives the cursor after it; the
cursor before it can be walked again.
-/

namespace TraceOpt

namespace HashTrie

universe u v

variable {K : Type u} {V : Type v}

namespace Node

mutual

/-- A bound on the steps of a walk below a node. -/
def weight : Node K V → Nat
  | leaf _ _ _ => 1
  | bucket _ _ => 2
  | branch _ children => listWeight children + 2

/-- A bound on the steps of a walk below a list of nodes. -/
def listWeight : List (Node K V) → Nat
  | [] => 0
  | n :: rest => weight n + listWeight rest

end

end Node

/-- What is left to visit of one node. -/
inductive Frame (K : Type u) (V : Type v) where
  /-- Children of a branch. -/
  | children (rest : List (Node K V))
  /-- Entries of a bucket. -/
  | entries (rest : List (K × V))

/-- A bound on the steps that a frame takes without giving an entry. -/
def Frame.weight : Frame K V → Nat
  | children rest => Node.listWeight rest + 1
  | entries _ => 1

/-- A bound on the steps that frames take without giving an entry. -/
def Frame.listWeight : List (Frame K V) → Nat
  | [] => 0
  | f :: rest => f.weight + listWeight rest

/-- A walk under way. -/
structure Cursor (K : Type u) (V : Type v) where
  /-- What is left to visit, the next part first. -/
  stack : List (Frame K V)
  /-- The number of entries to come. -/
  remaining : Nat

/-- The cursor before the first entry of a map. -/
def cursor (m : HashTrie K V) : Cursor K V := ⟨[.children m.root.toList], m.size⟩

namespace Cursor

/-- Takes the next entry off a stack of frames. -/
def advance : List (Frame K V) → Option ((K × V) × List (Frame K V))
  | [] => none
  | .entries [] :: rest => advance rest
  | .entries (e :: es) :: rest => some (e, .entries es :: rest)
  | .children [] :: rest => advance rest
  | .children (.leaf _ k v :: ns) :: rest => some ((k, v), .children ns :: rest)
  | .children (.bucket _ es :: ns) :: rest => advance (.entries es :: .children ns :: rest)
  | .children (.branch _ below :: ns) :: rest => advance (.children below :: .children ns :: rest)
termination_by stack => Frame.listWeight stack
decreasing_by
  all_goals
    simp only [Frame.listWeight, Frame.weight, Node.weight, Node.listWeight]
    omega

/-- The next entry and the cursor after it, unless the walk is over. -/
def next (c : Cursor K V) : Option ((K × V) × Cursor K V) :=
  (advance c.stack).map fun (e, stack) => (e, ⟨stack, c.remaining - 1⟩)

/-- Up to `n` entries, and the cursor after them. -/
def take : Nat → Cursor K V → List (K × V) × Cursor K V
  | 0, c => ([], c)
  | n + 1, c =>
    match c.next with
    | none => ([], c)
    | some (e, c') =>
      let (es, c'') := take n c'
      (e :: es, c'')

/-- All entries to come, and the cursor after them. -/
def drain (c : Cursor K V) : List (K × V) × Cursor K V := c.take (c.remaining + 1)

end Cursor

end HashTrie

end TraceOpt
