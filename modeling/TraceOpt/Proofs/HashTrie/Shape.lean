import TraceOpt.Proofs.HashTrie.Entries

/-!
# The shape of a trie

Every node of a trie stands at the end of a path of slots.  After any history of updates, and
whatever the hash function, a trie with entries has a root and its nodes are well shaped: leaves
and buckets store the hash of their keys, buckets are not too small, and branches have one child for
each slot, hold nothing that belongs elsewhere, and are neither too deep nor of no use.

* `Node.At`: the node at the end of a path.
* `Node.Valid.wellShaped`: what the invariant says about a node at the end of its path.
* `replay_wellShaped`: the shape of a trie after any history.
-/

namespace TraceOpt

namespace HashTrie

universe u v

variable {K : Type u} {V : Type v}

namespace Node

/-- The node at the end of a path of slots below a node. -/
inductive At (root : Node K V) : List Nat → Node K V → Prop
  | root : At root [] root
  | child {path : List Nat} {slots : Bitmap} {children : List (Node K V)} {i : Nat} {n : Node K V}
      (h : At root path (.branch slots children)) (hi : child? slots children i = some n) :
      At root (path ++ [i]) n

variable [BEq K] [Hashable K]

/-- A branch at the end of a path that has its place in a trie. -/
structure WellBranched (path : List Nat) (slots : Bitmap) (children : List (Node K V)) : Prop where
  /-- The chunk that it looks at begins at bit 60 of the hash at the latest. -/
  shallow : 5 * path.length ≤ 60
  /-- There is a child for every slot. -/
  card_eq : slots.card = children.length
  /-- There is a child. -/
  card_pos : 1 ≤ slots.card
  /-- An only child is a branch. -/
  only : ∀ n, children = [n] → n.isBranch = true
  /-- The hashes of the entries below a child lead to that child. -/
  routed : ∀ i n, child? slots children i = some n →
    ∀ e ∈ n.toList, route (hash e.1) (path.length + 1) = path ++ [i]
  /-- The child of a slot is found at the rank of the slot. -/
  rank_lt : ∀ i, slots.has i = true → slots.rank i < children.length
  /-- A child for a free slot can be put in at the rank of the slot. -/
  rank_le : ∀ i < 32, slots.rank i ≤ children.length
  /-- A child that erasing a key leaves nothing of has neighbours. -/
  neighbours : ∀ i n h key, child? slots children i = some n →
    n.erase? h key (path.length + 1) = some none → children.length ≠ 1

/-- A node at the end of a path that has its place in a trie. -/
def WellShaped (path : List Nat) : Node K V → Prop
  | leaf h key _ => hash key = h
  | bucket h entries => 2 ≤ entries.length ∧ (∀ k ∈ entries.map (·.1), hash k = h) ∧
      (entries.map (·.1)).Pairwise fun a b => (a == b) = false
  | branch slots children => WellBranched path slots children

variable {path : List Nat} {n root : Node K V}

theorem Valid.of_at (hroot : Valid [] root) (hn : root.At path n) : Valid path n := by
  induction hn with
  | root => exact hroot
  | child _ hi ih =>
    cases ih with
    | branch shallow card_eq nonempty only below => exact below _ _ hi

theorem Valid.wellShaped (hn : Valid path n) : n.WellShaped path := by
  cases hn with
  | leaf hash_eq on_route => exact hash_eq
  | bucket several hash_eq distinct on_route => exact ⟨several, hash_eq, distinct⟩
  | @branch _ slots children shallow card_eq nonempty only below =>
    constructor
    case shallow =>
      have hlevels : levels = 13 := rfl
      omega
    case card_eq => exact card_eq
    case card_pos => exact card_eq ▸ List.length_pos_of_ne_nil nonempty
    case only => exact only
    case routed =>
      intro i m hi e he
      have hroute := (below i m hi).route_of_mem he
      rwa [List.length_append] at hroute
    case rank_lt =>
      intro i hi
      exact card_eq ▸ slots.rank_lt_card hi
    case rank_le =>
      intro i hi
      exact card_eq ▸ slots.rank_le_card hi
    case neighbours =>
      intro i m h key hi herase
      -- erasing empties leaves only, and an only child is a branch
      refine length_ne_one_of_child? hi only fun hbranch => ?_
      refine (below i m hi).erase?_ne_some_none hbranch h key ?_
      rwa [List.length_append]

end Node

variable [BEq K] [Hashable K]

/-- A map without a root is a map without entries. -/
theorem root_eq_none_iff {m : HashTrie K V} (hm : m.Valid) (hsize : m.size = m.toList.length) :
    m.root = none ↔ m.size = 0 := by
  rw [hsize, toList, List.length_eq_zero_iff]
  cases hroot : m.root with
  | none => simp [Node.listToList]
  | some n => simp [Node.listToList, (hm n hroot).toList_ne_nil]

/-- **The shape of a trie.**  After any history of updates, and whatever the hash function, a trie
has a root exactly if it has entries, and every node of it is well shaped. -/
theorem replay_wellShaped (history : List (Update K V)) :
    ((replay history).root = none ↔ (replay history).size = 0) ∧
      ∀ root path n, (replay history).root = some root → root.At path n → n.WellShaped path := by
  have hvalid := valid_replay history
  refine ⟨root_eq_none_iff hvalid (size_replay history), fun root path n hroot hn => ?_⟩
  exact ((hvalid root hroot).of_at hn).wellShaped

/-- A branch of which one child is a bucket and one a leaf. -/
def labelledFork : Node Labelled Nat :=
  .branch ((Bitmap.single 0).add 1) [.bucket 5 [(⟨1, 0⟩, 10), (⟨2, 0⟩, 20)], .leaf 37 ⟨3, 0⟩ 30]

/-- Hashes that share one chunk lead to the fork, in slot 5 of the root. -/
theorem labelledFork_wellShaped :
    (replay (labelledHistory.take 3)).root = some (.branch (.single 5) [labelledFork]) ∧
      (Node.branch (.single 5) [labelledFork]).At [5] labelledFork ∧
      (Node.branch (.single 5) [labelledFork]).WellShaped [] ∧ labelledFork.WellShaped [5] := by
  have hroot : (replay (labelledHistory.take 3)).root = some (.branch (.single 5) [labelledFork]) :=
    rfl
  have hfork : (Node.branch (.single 5) [labelledFork]).At [5] labelledFork := .child .root rfl
  obtain ⟨-, hshape⟩ := replay_wellShaped (labelledHistory.take 3)
  exact ⟨hroot, hfork, hshape _ _ _ hroot .root, hshape _ _ _ hroot hfork⟩

end HashTrie

end TraceOpt
