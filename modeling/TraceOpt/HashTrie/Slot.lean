/-!
# Hash chunks and slot bitmaps

A hash is read five bits at a time, low bits first: chunk `d` picks one of 32 slots at depth `d`
of a trie.  A branch stores its occupied slots only; a bitmap says which they are, and the rank of
a slot is its place among them.

* `chunk_lt`: a chunk is the number of a slot.
* `Bitmap.has_add`, `Bitmap.has_remove`: what marking and clearing a slot does to the others.
-/

namespace TraceOpt

namespace HashTrie

/-! ### Chunks -/

/-- How many chunks a hash has; the last one holds its top four bits. -/
def levels : Nat := 13

/-- The slot that a hash picks at a depth; past the last bit of the hash it is slot 0. -/
def chunk (hash : UInt64) (depth : Nat) : Nat := (hash.toNat >>> (5 * depth)) % 32

theorem chunk_lt (hash : UInt64) (depth : Nat) : chunk hash depth < 32 :=
  Nat.mod_lt _ (by decide)

/-! ### Bitmaps -/

/-- A set of slots. -/
abbrev Bitmap := BitVec 32

namespace Bitmap

/-- Whether slot `i` is in the set. -/
def has (b : Bitmap) (i : Nat) : Bool := b.getLsbD i

/-- The set with slot `i` alone. -/
def single (i : Nat) : Bitmap := BitVec.twoPow 32 i

/-- The set with slot `i` put in. -/
def add (b : Bitmap) (i : Nat) : Bitmap := b ||| single i

/-- The set with slot `i` taken out. -/
def remove (b : Bitmap) (i : Nat) : Bitmap := b &&& ~~~ single i

/-- How many slots below `i` are in the set. -/
def rank (b : Bitmap) (i : Nat) : Nat := (List.range i).countP b.has

/-- How many slots are in the set. -/
def card (b : Bitmap) : Nat := b.rank 32

@[simp] theorem has_single (i j : Nat) (h : i < 32) : (single i).has j = decide (i = j) := by
  simp [has, single, h]

@[simp] theorem has_add (b : Bitmap) (i j : Nat) (h : i < 32) :
    (b.add i).has j = (b.has j || decide (i = j)) := by
  simp [has, add, single, h]

@[simp] theorem has_remove (b : Bitmap) (i j : Nat) :
    (b.remove i).has j = (b.has j && !decide (i = j)) := by
  by_cases hj : j < 32
  · simp [has, remove, single, hj, eq_comm]
  · simp [has, remove, BitVec.getLsbD_of_ge _ _ (Nat.le_of_not_lt hj)]

end Bitmap

end HashTrie

end TraceOpt
