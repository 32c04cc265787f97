import TraceOpt.HashTrie.Slot

/-!
# Nodes of a hash trie

A node is a leaf with one entry, a bucket of entries that share their whole hash, or a branch
whose children stand in the order of their slots.  Looking up, inserting and erasing descend one
chunk per level; entries are told apart by their hash and then by their key, so a hash shared in
part or as a whole never confuses two keys.

Nothing is changed in place: an update rebuilds the nodes on one path and keeps all others.

The functions that descend come in pairs, one for a node and one for the child at a place;
`findNth?_eq_bind`, `insertNth_eq_insert` and `eraseNth?_eq_bind` say that the second is the first
at that child.
-/

namespace TraceOpt

namespace HashTrie

universe u v

/-- A node that holds at least one entry. -/
inductive Node (K : Type u) (V : Type v) where
  /-- One entry, with the hash of its key. -/
  | leaf (hash : UInt64) (key : K) (value : V)
  /-- Several entries with one hash, oldest first. -/
  | bucket (hash : UInt64) (entries : List (K × V))
  /-- One child for every slot in the bitmap, in the order of the slots. -/
  | branch (slots : Bitmap) (children : List (Node K V))

variable {K : Type u} {V : Type v}

/-! ### Buckets -/

namespace Bucket

variable [BEq K]

/-- Binds a key within a bucket: a key that is there stays as it is and takes the new value, a
new key goes last. -/
def insert (key : K) (value : V) : List (K × V) → List (K × V)
  | [] => [(key, value)]
  | (k, v) :: rest => if k == key then (k, value) :: rest else (k, v) :: insert key value rest

/-- The value of a key within a bucket. -/
def find? (key : K) (entries : List (K × V)) : Option V :=
  (entries.find? (·.1 == key)).map (·.2)

/-- Whether a bucket holds a key. -/
def contains (key : K) (entries : List (K × V)) : Bool := entries.any (·.1 == key)

end Bucket

namespace Node

/-- Whether a node is a branch. -/
def isBranch : Node K V → Bool
  | branch _ _ => true
  | _ => false

/-! ### The entries of a node -/

mutual

/-- The entries below a node: children by slot, bucket entries oldest first. -/
def toList : Node K V → List (K × V)
  | leaf _ k v => [(k, v)]
  | bucket _ entries => entries
  | branch _ children => listToList children

/-- The entries below a list of nodes, node after node. -/
def listToList : List (Node K V) → List (K × V)
  | [] => []
  | n :: rest => toList n ++ listToList rest

end

theorem listToList_eq_flatMap (ns : List (Node K V)) : listToList ns = ns.flatMap toList := by
  induction ns with
  | nil => simp [listToList]
  | cons n rest ih => simp [listToList, ih]

/-! ### Looking up -/

section Find

variable [BEq K] (hash : UInt64) (key : K)

mutual

/-- The value of a key below a node at a depth. -/
def find? (depth : Nat) : Node K V → Option V
  | leaf h k v => if h = hash && k == key then some v else none
  | bucket h entries => if h = hash then Bucket.find? key entries else none
  | branch slots children =>
    let i := chunk hash depth
    if slots.has i then findNth? (depth + 1) children (slots.rank i) else none

/-- The value of a key below one of several nodes, chosen by its place. -/
def findNth? (depth : Nat) : List (Node K V) → Nat → Option V
  | [], _ => none
  | n :: _, 0 => find? depth n
  | _ :: rest, i + 1 => findNth? depth rest i

end

theorem findNth?_eq_bind (depth : Nat) (ns : List (Node K V)) (i : Nat) :
    findNth? hash key depth ns i = ns[i]?.bind (find? hash key depth) := by
  induction ns generalizing i with
  | nil => simp [findNth?]
  | cons n rest ih => cases i <;> simp [findNth?, ih]

end Find

/-! ### Inserting -/

/-- The smallest node at a depth with two nodes that hold one hash each: a chain of branches along
the chunks that the hashes share, and a fork where they part.  Two equal hashes never part, and
then the first node alone is the answer. -/
def join (depth : Nat) (a : Node K V) (aHash : UInt64) (b : Node K V) (bHash : UInt64) :
    Node K V :=
  go (levels - depth) depth
where
  /-- Walks down the chunks that are left. -/
  go : Nat → Nat → Node K V
    | 0, _ => a
    | left + 1, d =>
      let i := chunk aHash d
      let j := chunk bHash d
      if i = j then branch (.single i) [go left (d + 1)]
      else branch ((Bitmap.single i).add j) (if i < j then [a, b] else [b, a])

section Insert

variable [BEq K] (hash : UInt64) (key : K) (value : V)

mutual

/-- Binds a key below a node at a depth, and says whether the key is new there.  A leaf takes the
new key along with the value; in a bucket the stored key stays. -/
def insert (depth : Nat) : Node K V → Node K V × Bool
  | leaf h k v =>
    if h = hash then
      if k == key then (leaf hash key value, false)
      else (bucket hash [(k, v), (key, value)], true)
    else (join depth (leaf h k v) h (leaf hash key value) hash, true)
  | bucket h entries =>
    if h = hash then (bucket h (Bucket.insert key value entries), !Bucket.contains key entries)
    else (join depth (bucket h entries) h (leaf hash key value) hash, true)
  | branch slots children =>
    let i := chunk hash depth
    let place := slots.rank i
    if slots.has i then
      let below := insertNth (depth + 1) children place
      (branch slots (children.set place below.1), below.2)
    else (branch (slots.add i) (children.insertIdx place (leaf hash key value)), true)

/-- Binds a key below one of several nodes, chosen by its place, and gives the node back. -/
def insertNth (depth : Nat) : List (Node K V) → Nat → Node K V × Bool
  | [], _ => (leaf hash key value, true)
  | n :: _, 0 => insert depth n
  | _ :: rest, i + 1 => insertNth depth rest i

end

theorem insertNth_eq_insert (depth : Nat) (ns : List (Node K V)) (i : Nat) (h : i < ns.length) :
    insertNth hash key value depth ns i = insert hash key value depth ns[i] := by
  induction ns generalizing i with
  | nil => simp at h
  | cons n rest ih =>
    cases i with
    | zero => simp [insertNth]
    | succ i => simpa [insertNth] using ih i (by simpa using h)

end Insert

/-! ### Erasing -/

/-- A branch, unless its only child is a leaf or a bucket: those know their whole hash and take
the branch's place. -/
def collapse (slots : Bitmap) : List (Node K V) → Node K V
  | [n] => if n.isBranch then branch slots [n] else n
  | children => branch slots children

/-- What is left of a bucket: a single entry is a leaf. -/
def ofEntries (hash : UInt64) : List (K × V) → Node K V
  | [(k, v)] => leaf hash k v
  | entries => bucket hash entries

section Erase

variable [BEq K] (hash : UInt64) (key : K)

mutual

/-- Takes a key out of a node at a depth: `none` if the key is not there, otherwise the node that
is left, if one is. -/
def erase? (depth : Nat) : Node K V → Option (Option (Node K V))
  | leaf h k _ => if h = hash && k == key then some none else none
  | bucket h entries =>
    if h = hash && Bucket.contains key entries then
      some (some (ofEntries h (entries.eraseP (·.1 == key))))
    else none
  | branch slots children =>
    let i := chunk hash depth
    let place := slots.rank i
    if slots.has i then
      match eraseNth? (depth + 1) children place with
      | none => none
      | some none =>
        if children.length = 1 then some none
        else some (some (collapse (slots.remove i) (children.eraseIdx place)))
      | some (some n) => some (some (collapse slots (children.set place n)))
    else none

/-- Takes a key out of one of several nodes, chosen by its place. -/
def eraseNth? (depth : Nat) : List (Node K V) → Nat → Option (Option (Node K V))
  | [], _ => none
  | n :: _, 0 => erase? depth n
  | _ :: rest, i + 1 => eraseNth? depth rest i

end

theorem eraseNth?_eq_bind (depth : Nat) (ns : List (Node K V)) (i : Nat) :
    eraseNth? hash key depth ns i = ns[i]?.bind (erase? hash key depth) := by
  induction ns generalizing i with
  | nil => simp [eraseNth?]
  | cons n rest ih => cases i <;> simp [eraseNth?, ih]

end Erase

end Node

end HashTrie

end TraceOpt
