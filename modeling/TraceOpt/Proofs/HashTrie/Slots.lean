import Mathlib.Algebra.Group.Nat.Defs
import Mathlib.Data.List.Basic
import Mathlib.Tactic.SplitIfs
import TraceOpt.HashTrie.Node

/-!
# Routes of hashes and children in slots

The chunks of a hash are its route through a trie, and a hash is given by its whole route
(`eq_of_route_eq`).  A branch finds its children by rank; `child?` is the child in a slot, and the
lemmas below say what replacing, adding and dropping a child does to the children in all slots.
-/

namespace TraceOpt

namespace HashTrie

universe u v

/-! ### Routes -/

/-- The slots that a hash picks at the first `d` depths. -/
def route (hash : UInt64) (d : Nat) : List Nat := (List.range d).map (chunk hash)

@[simp] theorem length_route (hash : UInt64) (d : Nat) : (route hash d).length = d := by
  simp [route]

@[simp] theorem route_zero (hash : UInt64) : route hash 0 = [] := rfl

theorem route_succ (hash : UInt64) (d : Nat) :
    route hash (d + 1) = route hash d ++ [chunk hash d] := by
  simp [route, List.range_succ]

theorem chunk_eq (hash : UInt64) (d : Nat) : chunk hash d = hash.toNat / 32 ^ d % 32 := by
  rw [chunk, Nat.shiftRight_eq_div_pow, Nat.pow_mul]

theorem mod_eq_of_route_eq {a b : UInt64} {d : Nat} (h : route a d = route b d) :
    a.toNat % 32 ^ d = b.toNat % 32 ^ d := by
  induction d with
  | zero => simp [Nat.mod_one]
  | succ d ih =>
    rw [route_succ, route_succ] at h
    obtain ⟨hroute, hchunk⟩ := List.append_inj' h rfl
    rw [List.singleton_inj, chunk_eq, chunk_eq] at hchunk
    rw [Nat.mod_pow_succ, Nat.mod_pow_succ, ih hroute, hchunk]

/-- A hash is given by its route through all levels. -/
theorem eq_of_route_eq {a b : UInt64} (h : route a levels = route b levels) : a = b := by
  have hmod := mod_eq_of_route_eq h
  -- the last chunk is a short one, so the route holds a few bits more than the hash
  have hle : 2 ^ 64 ≤ 32 ^ levels := by decide
  rw [Nat.mod_eq_of_lt (Nat.lt_of_lt_of_le a.toNat_lt hle),
    Nat.mod_eq_of_lt (Nat.lt_of_lt_of_le b.toNat_lt hle)] at hmod
  exact UInt64.toNat_inj.1 hmod

/-! ### Ranks -/

namespace Bitmap

variable (b : Bitmap)

theorem lt_of_has {b : Bitmap} {i : Nat} (h : b.has i = true) : i < 32 := by
  by_contra hi
  rw [has, BitVec.getLsbD_of_ge _ _ (Nat.le_of_not_lt hi)] at h
  exact Bool.false_ne_true h

@[simp] theorem rank_zero : b.rank 0 = 0 := rfl

theorem rank_succ (i : Nat) : b.rank (i + 1) = b.rank i + if b.has i then 1 else 0 := by
  simp [rank, List.range_succ, List.countP_append, List.countP_cons]

theorem rank_mono {i j : Nat} (h : i ≤ j) : b.rank i ≤ b.rank j := by
  induction h with
  | refl => exact Nat.le_refl _
  | step _ ih => rw [rank_succ]; omega

theorem rank_lt_rank {i j : Nat} (hi : b.has i = true) (h : i < j) : b.rank i < b.rank j := by
  have hmono := b.rank_mono h
  rw [Nat.succ_eq_add_one, rank_succ, hi, if_pos rfl] at hmono
  omega

theorem rank_lt_card {i : Nat} (hi : b.has i = true) : b.rank i < b.card :=
  b.rank_lt_rank hi (lt_of_has hi)

theorem rank_le_card {i : Nat} (hi : i < 32) : b.rank i ≤ b.card := b.rank_mono (Nat.le_of_lt hi)

theorem rank_inj {i j : Nat} (hi : b.has i = true) (hj : b.has j = true)
    (h : b.rank i = b.rank j) : i = j := by
  rcases Nat.lt_trichotomy i j with hlt | rfl | hgt
  · exact absurd h (Nat.ne_of_lt (b.rank_lt_rank hi hlt))
  · rfl
  · exact absurd h.symm (Nat.ne_of_lt (b.rank_lt_rank hj hgt))

theorem rank_single {i : Nat} (hi : i < 32) (j : Nat) :
    (single i).rank j = if i < j then 1 else 0 := by
  induction j with
  | zero => simp
  | succ j ih =>
    rw [rank_succ, ih, has_single i j hi]
    simp only [decide_eq_true_eq]
    split_ifs <;> omega

theorem rank_add {i : Nat} (hi : i < 32) (hb : b.has i = false) (j : Nat) :
    (b.add i).rank j = b.rank j + if i < j then 1 else 0 := by
  induction j with
  | zero => simp
  | succ j ih =>
    rw [rank_succ, ih, rank_succ, has_add b i j hi]
    by_cases hij : i = j
    · subst hij
      simp [hb]
    · simp only [hij, decide_false, Bool.or_false]
      split_ifs <;> omega

theorem rank_remove {i : Nat} (hb : b.has i = true) (j : Nat) :
    (b.remove i).rank j + (if i < j then 1 else 0) = b.rank j := by
  induction j with
  | zero => simp
  | succ j ih =>
    rw [rank_succ, rank_succ, has_remove, ← ih]
    by_cases hij : i = j
    · subst hij
      simp [hb]
    · simp only [hij, decide_false, Bool.not_false, Bool.and_true]
      split_ifs <;> omega

theorem exists_has {b : Bitmap} (h : 0 < b.card) : ∃ i, b.has i = true := by
  obtain ⟨i, -, hi⟩ := List.countP_pos_iff.1 h
  exact ⟨i, hi⟩

theorem card_single {i : Nat} (hi : i < 32) : (single i).card = 1 := by
  rw [card, rank_single hi, if_pos hi]

theorem card_add {i : Nat} (hi : i < 32) (hb : b.has i = false) : (b.add i).card = b.card + 1 := by
  rw [card, rank_add b hi hb, if_pos hi, card]

theorem card_remove {i : Nat} (hb : b.has i = true) : (b.remove i).card + 1 = b.card := by
  have h := rank_remove b hb 32
  rwa [if_pos (lt_of_has hb)] at h

end Bitmap

/-! ### Children -/

namespace Node

variable {K : Type u} {V : Type v}

/-- The child of a branch in a slot. -/
def child? (slots : Bitmap) (children : List (Node K V)) (i : Nat) : Option (Node K V) :=
  if slots.has i then children[slots.rank i]? else none

variable {slots : Bitmap} {children : List (Node K V)} {i : Nat} {n : Node K V}

theorem child?_of_not_has (h : slots.has i = false) : child? slots children i = none := by
  simp [child?, h]

theorem has_of_child? (h : child? slots children i = some n) : slots.has i = true := by
  by_contra hi
  rw [child?_of_not_has (by simpa using hi)] at h
  cases h

theorem getElem?_rank (h : child? slots children i = some n) :
    children[slots.rank i]? = some n := by
  rwa [child?, if_pos (has_of_child? h)] at h

theorem rank_lt_length (h : child? slots children i = some n) :
    slots.rank i < children.length :=
  (List.getElem?_eq_some_iff.1 (getElem?_rank h)).1

theorem mem_of_child? (h : child? slots children i = some n) : n ∈ children :=
  List.mem_of_getElem? (getElem?_rank h)

theorem exists_child? (hcard : slots.card = children.length) (h : slots.has i = true) :
    ∃ n, child? slots children i = some n := by
  have hlt := slots.rank_lt_card h
  rw [hcard] at hlt
  exact ⟨children[slots.rank i], by rw [child?, if_pos h, List.getElem?_eq_getElem hlt]⟩

theorem child?_single (hi : i < 32) (n : Node K V) (j : Nat) :
    child? (.single i) [n] j = if j = i then some n else none := by
  rw [child?, Bitmap.has_single i j hi]
  by_cases hj : j = i
  · subst hj
    simp [Bitmap.rank_single hi]
  · simp [hj, Ne.symm hj]

theorem child?_set (hi : slots.has i = true) (hlt : slots.rank i < children.length)
    (n : Node K V) (j : Nat) :
    child? slots (children.set (slots.rank i) n) j =
      if j = i then some n else child? slots children j := by
  by_cases hj : j = i
  · subst hj
    rw [child?, if_pos hi, if_pos rfl, List.getElem?_set_self hlt]
  · rw [if_neg hj, child?, child?]
    split_ifs with hhas
    · exact List.getElem?_set_ne fun h => hj (slots.rank_inj hhas hi h.symm)
    · rfl

theorem child?_insertIdx (hi : i < 32) (hno : slots.has i = false)
    (hcard : slots.card = children.length) (n : Node K V) (j : Nat) :
    child? (slots.add i) (children.insertIdx (slots.rank i) n) j =
      if j = i then some n else child? slots children j := by
  rw [child?, Bitmap.has_add slots i j hi, slots.rank_add hi hno]
  by_cases hj : j = i
  · subst hj
    have hle : slots.rank j ≤ children.length := hcard ▸ slots.rank_le_card hi
    simp [List.getElem?_insertIdx_self, hle]
  · simp only [hj, Ne.symm hj, decide_false, Bool.or_false, if_false, child?]
    split_ifs with hhas hlt
    -- in higher slots the rank and the child both move up by one, in lower ones neither does
    · have hrank := slots.rank_mono (Nat.le_of_lt hlt)
      rw [List.getElem?_insertIdx_of_gt (by omega), Nat.add_sub_cancel]
    · have hrank := slots.rank_lt_rank hhas (by omega : j < i)
      rw [List.getElem?_insertIdx_of_lt (by omega), Nat.add_zero]
    · rfl

theorem child?_eraseIdx (hi : slots.has i = true) (j : Nat) :
    child? (slots.remove i) (children.eraseIdx (slots.rank i)) j =
      if j = i then none else child? slots children j := by
  have hrank := slots.rank_remove hi j
  rw [child?, Bitmap.has_remove]
  by_cases hj : j = i
  · simp [hj]
  · simp only [Ne.symm hj, decide_false, Bool.not_false, Bool.and_true, hj, if_false, child?]
    split_ifs with hhas
    · by_cases hlt : i < j
      · have := slots.rank_lt_rank hi hlt
        rw [if_pos hlt] at hrank
        rw [List.getElem?_eraseIdx_of_ge (by omega), hrank]
      · have := slots.rank_lt_rank hhas (by omega : j < i)
        rw [if_neg hlt, Nat.add_zero] at hrank
        rw [hrank, List.getElem?_eraseIdx_of_lt this]
    · rfl

theorem join_go_of_eq {a b : Node K V} {aHash bHash : UInt64} {left d : Nat}
    (h : chunk aHash d = chunk bHash d) :
    join.go a aHash b bHash (left + 1) d =
      branch (.single (chunk aHash d)) [join.go a aHash b bHash left (d + 1)] := by
  rw [join.go, if_pos h]

/-- A fork is a branch with one child to which the other one is added. -/
theorem join_go_of_ne (a b : Node K V) (left : Nat) {aHash bHash : UInt64} {d : Nat}
    (h : chunk aHash d ≠ chunk bHash d) :
    (Bitmap.single (chunk aHash d)).has (chunk bHash d) = false ∧
      join.go a aHash b bHash (left + 1) d =
        branch ((Bitmap.single (chunk aHash d)).add (chunk bHash d))
          ([a].insertIdx ((Bitmap.single (chunk aHash d)).rank (chunk bHash d)) b) := by
  refine ⟨by simpa [Bitmap.has_single _ _ (chunk_lt _ _)] using h, ?_⟩
  rw [join.go, if_neg h, Bitmap.rank_single (chunk_lt _ _)]
  split_ifs <;> rfl

theorem eq_singleton_of_set {children : List (Node K V)} {p : Nat} {n m x : Node K V}
    (hp : children[p]? = some n) (h : children.set p x = [m]) : children = [n] ∧ x = m := by
  have hlen : children.length = 1 := by rw [← List.length_set (a := x) (i := p), h]; rfl
  obtain ⟨a, rfl⟩ := List.length_eq_one_iff.1 hlen
  obtain rfl : p = 0 := by
    have := (List.getElem?_eq_some_iff.1 hp).1
    simpa using this
  exact ⟨congrArg (fun y => [y]) (Option.some.inj hp), List.singleton_inj.1 h⟩

/-- Where an only child is a branch, a child that is none is not the only one. -/
theorem length_ne_one_of_child? (hc : child? slots children i = some n)
    (only : ∀ m, children = [m] → m.isBranch = true) (hn : ¬ n.isBranch = true) :
    children.length ≠ 1 := by
  intro hone
  obtain ⟨m, rfl⟩ := List.length_eq_one_iff.1 hone
  obtain rfl := List.mem_singleton.1 (mem_of_child? hc)
  exact hn (only n rfl)

/-! ### Descending -/

section Descend

variable [BEq K] {hash : UInt64} {key : K} {value : V} {depth : Nat}

theorem find?_branch :
    find? hash key depth (branch slots children) =
      (child? slots children (chunk hash depth)).bind (find? hash key (depth + 1)) := by
  rw [find?, findNth?_eq_bind, child?]
  split_ifs <;> rfl

theorem insert_branch_of_some (h : child? slots children (chunk hash depth) = some n) :
    insert hash key value depth (branch slots children) =
      (branch slots
        (children.set (slots.rank (chunk hash depth)) (insert hash key value (depth + 1) n).1),
        (insert hash key value (depth + 1) n).2) := by
  obtain ⟨hlt, rfl⟩ := List.getElem?_eq_some_iff.1 (getElem?_rank h)
  rw [insert, if_pos (has_of_child? h), insertNth_eq_insert hash key value _ _ _ hlt]

theorem insert_branch_of_none (key : K) (value : V) (hcard : slots.card = children.length)
    (h : child? slots children (chunk hash depth) = none) :
    slots.has (chunk hash depth) = false ∧
      insert hash key value depth (branch slots children) =
        (branch (slots.add (chunk hash depth))
          (children.insertIdx (slots.rank (chunk hash depth)) (leaf hash key value)), true) := by
  have hno : slots.has (chunk hash depth) = false := by
    by_contra hhas
    obtain ⟨n, hn⟩ := exists_child? hcard (by simpa using hhas)
    rw [hn] at h
    cases h
  exact ⟨hno, by simp [insert, hno]⟩

theorem isBranch_insert (hn : n.isBranch = true) :
    (n.insert hash key value depth).1.isBranch = true := by
  cases n with
  | leaf => cases hn
  | bucket => cases hn
  | branch slots children =>
    rw [insert]
    split_ifs <;> rfl

theorem erase?_branch_of_none (h : child? slots children (chunk hash depth) = none) :
    erase? hash key depth (branch slots children) = none := by
  rw [erase?, eraseNth?_eq_bind]
  by_cases hhas : slots.has (chunk hash depth) = true
  · rw [child?, if_pos hhas] at h
    rw [if_pos hhas, h, Option.bind_none]
  · rw [if_neg hhas]

theorem erase?_branch_of_some (h : child? slots children (chunk hash depth) = some n) :
    erase? hash key depth (branch slots children) =
      match erase? hash key (depth + 1) n with
      | none => none
      | some none =>
        if children.length = 1 then some none
        else some (some (collapse (slots.remove (chunk hash depth))
          (children.eraseIdx (slots.rank (chunk hash depth)))))
      | some (some m) =>
        some (some (collapse slots (children.set (slots.rank (chunk hash depth)) m))) := by
  rw [erase?, if_pos (has_of_child? h), eraseNth?_eq_bind, getElem?_rank h]
  rfl

end Descend

end Node

end HashTrie

end TraceOpt
