import TraceOpt.HashTrie.Node

/-!
# Persistent maps

A `HashTrie` is an immutable map from keys to values.  Every update gives a new map, and a map
held from before the update still has the entries it had.  Any hash function will do: equal keys
must be equal under `==`, and the better the hash spreads them the flatter the trie.

* `toList` lists the entries in the order of the trie.
* `find?` answers with the value bound last.
* `==` compares contents.
-/

namespace TraceOpt

universe u v

/-- A persistent map: the root node, if there are entries, and the number of keys. -/
structure HashTrie (K : Type u) (V : Type v) where
  /-- The root; a map without entries has none. -/
  root : Option (HashTrie.Node K V)
  /-- The number of keys. -/
  size : Nat

namespace HashTrie

variable {K : Type u} {V : Type v}

/-- The map without entries. -/
def empty : HashTrie K V := ⟨none, 0⟩

/-- Whether a map has no entries. -/
def isEmpty (m : HashTrie K V) : Bool := m.size == 0

/-- The entries in the order of the trie: by the chunks of their hashes, low bits first, and
oldest first where hashes are equal. -/
def toList (m : HashTrie K V) : List (K × V) := Node.listToList m.root.toList

/-- The keys in the order of the trie. -/
def keys (m : HashTrie K V) : List K := m.toList.map (·.1)

/-- The values in the order of the trie. -/
def values (m : HashTrie K V) : List V := m.toList.map (·.2)

/-- The entries of a map as `key: value` in braces, in the order of the trie. -/
def text (key : K → String) (value : V → String) (m : HashTrie K V) : String :=
  "\x7b" ++ ", ".intercalate (m.toList.map fun (k, v) => key k ++ ": " ++ value v) ++ "\x7d"

@[simp] theorem toList_empty : (empty : HashTrie K V).toList = [] := rfl

section Keyed

variable [BEq K] [Hashable K]

/-- The value of a key. -/
def find? (m : HashTrie K V) (key : K) : Option V :=
  m.root.bind (Node.find? (hash key) key 0)

/-- The value of a key, or a value to fall back on. -/
def findD (m : HashTrie K V) (key : K) (fallback : V) : V := (m.find? key).getD fallback

/-- Whether a map holds a key. -/
def contains (m : HashTrie K V) (key : K) : Bool := (m.find? key).isSome

/-- The map with a key bound to a value. -/
def insert (m : HashTrie K V) (key : K) (value : V) : HashTrie K V :=
  match m.root with
  | none => ⟨some (.leaf (hash key) key value), m.size + 1⟩
  | some n =>
    let updated := n.insert (hash key) key value 0
    ⟨some updated.1, if updated.2 then m.size + 1 else m.size⟩

/-- The map without a key, if the key was there. -/
def erase? (m : HashTrie K V) (key : K) : Option (HashTrie K V) :=
  (m.root.bind (Node.erase? (hash key) key 0)).map fun root => ⟨root, m.size - 1⟩

/-- The map that binds the entries of a list one after another. -/
def ofList (entries : List (K × V)) : HashTrie K V :=
  entries.foldl (fun m (k, v) => m.insert k v) empty

/-- Whether two maps have the same contents, given whether they are known to share their root: a
shared root settles the question without a walk. -/
def sameContents [BEq V] (shared : Bool) (a b : HashTrie K V) : Bool :=
  a.size == b.size && (shared || a.toList.all fun (k, v) => b.find? k == some v)

instance [BEq V] : BEq (HashTrie K V) := ⟨sameContents false⟩

@[simp] theorem find?_empty (key : K) : (empty : HashTrie K V).find? key = none := rfl

@[simp] theorem erase?_empty (key : K) : (empty : HashTrie K V).erase? key = none := rfl

end Keyed

/-- Whether two maps hold the same entries in the same order, key instances included; maps built
by updates then have the same nodes.  This is coarser than being one map in memory, of which values
know nothing: two maps that were built apart are identical too if their entries are. -/
def identical [DecidableEq K] [DecidableEq V] (a b : HashTrie K V) : Bool :=
  decide (a.toList = b.toList)

end HashTrie

end TraceOpt
