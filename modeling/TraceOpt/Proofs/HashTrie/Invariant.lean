import TraceOpt.HashTrie.Map
import TraceOpt.Proofs.HashTrie.Slots

/-!
# The invariant of hash tries

A node is valid on a path of slots when its bitmaps count its children, every entry lies on the
route of its key's hash, buckets hold at least two entries with different keys, and no branch has
a leaf or a bucket for its only child.  Every update keeps this:

* `Node.Valid.insert`: inserting a key keeps a node valid.
* `Node.Valid.erase`: what is left after erasing a key is valid.
* `Node.Valid.erase?_ne_some_none`: erasing never empties a branch.
* `Valid.insert`, `Valid.erase`: the same for whole maps.
-/

namespace TraceOpt

namespace HashTrie

universe u v

variable {K : Type u} {V : Type v}

/-! ### Keys of buckets -/

namespace Bucket

variable [BEq K] {key k : K} {value : V} {entries : List (K × V)}

theorem contains_eq_any : contains key entries = (entries.map (·.1)).any (· == key) := by
  rw [contains, List.any_map]
  rfl

theorem keys_insert :
    (insert key value entries).map (·.1) =
      if contains key entries then entries.map (·.1) else entries.map (·.1) ++ [key] := by
  induction entries with
  | nil => rfl
  | cons e rest ih =>
    obtain ⟨k, v⟩ := e
    by_cases hk : (k == key) = true
    · simp [insert, contains, hk]
    · have hc : contains key ((k, v) :: rest) = contains key rest := by simp [contains, hk]
      rw [insert, if_neg hk, List.map_cons, ih, hc]
      split_ifs <;> rfl

theorem length_le_length_insert : entries.length ≤ (insert key value entries).length := by
  have h : ((insert key value entries).map (·.1)).length = _ := congrArg List.length keys_insert
  rw [List.length_map] at h
  rw [h]
  split_ifs <;> simp

theorem beq_eq_false_of_not_contains (h : contains key entries = false)
    (hk : k ∈ entries.map (·.1)) : (k == key) = false := by
  rw [contains_eq_any, List.any_eq_false] at h
  simpa using h k hk

theorem length_eraseP (h : contains key entries = true) :
    (entries.eraseP (·.1 == key)).length = entries.length - 1 := by
  obtain ⟨e, he, hk⟩ := List.any_eq_true.1 h
  exact List.length_eraseP_of_mem he hk

end Bucket

namespace Node

/-! ### Valid nodes -/

variable [BEq K] [Hashable K]

/-- A node that may stand at the end of a path of slots. -/
inductive Valid : List Nat → Node K V → Prop where
  /-- A leaf stores the hash of its key and lies on its route. -/
  | leaf {path : List Nat} {h : UInt64} {key : K} {value : V} (hash_eq : hash key = h)
      (on_route : route h path.length = path) : Valid path (.leaf h key value)
  /-- A bucket holds several different keys with the stored hash and lies on its route. -/
  | bucket {path : List Nat} {h : UInt64} {entries : List (K × V)} (several : 2 ≤ entries.length)
      (hash_eq : ∀ k ∈ entries.map (·.1), hash k = h)
      (distinct : (entries.map (·.1)).Pairwise fun a b => (a == b) = false)
      (on_route : route h path.length = path) : Valid path (.bucket h entries)
  /-- A branch has a child for each of its slots, valid one slot further down, and does not stand
  in the place of a single leaf or bucket. -/
  | branch {path : List Nat} {slots : Bitmap} {children : List (Node K V)}
      (shallow : path.length < levels) (card_eq : slots.card = children.length)
      (nonempty : children ≠ []) (only : ∀ n, children = [n] → n.isBranch = true)
      (below : ∀ i n, child? slots children i = some n → Valid (path ++ [i]) n) :
      Valid path (.branch slots children)

/-- A leaf or a bucket may stand anywhere above its place. -/
theorem Valid.lift {path : List Nat} {i : Nat} {n : Node K V} (hn : Valid (path ++ [i]) n)
    (hb : n.isBranch = false) : Valid path n := by
  have hroute {h : UInt64} (hr : route h (path ++ [i]).length = path ++ [i]) :
      route h path.length = path := by
    rw [List.length_append, List.length_singleton, route_succ] at hr
    exact (List.append_inj' hr rfl).1
  cases hn with
  | leaf hash_eq on_route => exact .leaf hash_eq (hroute on_route)
  | bucket several hash_eq distinct on_route =>
    exact .bucket several hash_eq distinct (hroute on_route)
  | branch => cases hb

/-! ### Children of valid branches -/

section Below

variable {path : List Nat} {slots : Bitmap} {children : List (Node K V)} {i : Nat} {n : Node K V}
  (below : ∀ j m, child? slots children j = some m → Valid (path ++ [j]) m)

include below

theorem below_set (hi : slots.has i = true) (hlt : slots.rank i < children.length)
    (hn : Valid (path ++ [i]) n) (j : Nat) (m : Node K V)
    (hm : child? slots (children.set (slots.rank i) n) j = some m) : Valid (path ++ [j]) m := by
  rw [child?_set hi hlt] at hm
  split_ifs at hm with hj
  · obtain rfl := Option.some.inj hm
    rwa [hj]
  · exact below j m hm

theorem below_insertIdx (card_eq : slots.card = children.length) (hi : i < 32)
    (hno : slots.has i = false) (hn : Valid (path ++ [i]) n) (j : Nat) (m : Node K V)
    (hm : child? (slots.add i) (children.insertIdx (slots.rank i) n) j = some m) :
    Valid (path ++ [j]) m := by
  rw [child?_insertIdx hi hno card_eq] at hm
  split_ifs at hm with hj
  · obtain rfl := Option.some.inj hm
    rwa [hj]
  · exact below j m hm

theorem below_eraseIdx (hi : slots.has i = true) (j : Nat) (m : Node K V)
    (hm : child? (slots.remove i) (children.eraseIdx (slots.rank i)) j = some m) :
    Valid (path ++ [j]) m := by
  rw [child?_eraseIdx hi] at hm
  split_ifs at hm
  exact below j m hm

end Below

/-! ### Inserting -/

/-- A branch takes a further child into a free slot. -/
theorem valid_insertIdx {path : List Nat} {slots : Bitmap} {children : List (Node K V)}
    {i : Nat} {n : Node K V} (shallow : path.length < levels)
    (card_eq : slots.card = children.length) (nonempty : children ≠ [])
    (below : ∀ j m, child? slots children j = some m → Valid (path ++ [j]) m)
    (hi : i < 32) (hno : slots.has i = false) (hn : Valid (path ++ [i]) n) :
    Valid path (.branch (slots.add i) (children.insertIdx (slots.rank i) n)) := by
  have hlen : (children.insertIdx (slots.rank i) n).length = children.length + 1 :=
    List.length_insertIdx_of_le_length (card_eq ▸ slots.rank_le_card hi) n
  refine .branch shallow ?_ ?_ ?_ (below_insertIdx below card_eq hi hno hn)
  · rw [slots.card_add hi hno, hlen, card_eq]
  · exact List.ne_nil_of_length_eq_add_one hlen
  · intro m hm
    have hpos := List.length_pos_of_ne_nil nonempty
    rw [hm, List.length_singleton] at hlen
    omega

/-- Two nodes that may stand anywhere along the routes of two different hashes, joined at a depth
where the routes still agree. -/
theorem valid_join_go {a b : Node K V} {aHash bHash : UInt64}
    (ha : ∀ d, Valid (route aHash d) a) (hb : ∀ d, Valid (route bHash d) b)
    (hne : aHash ≠ bHash) (left d : Nat) (hlevels : d + left = levels)
    (hd : route aHash d = route bHash d) :
    Valid (route aHash d) (join.go a aHash b bHash left d) ∧
      (join.go a aHash b bHash left d).isBranch = true := by
  induction left generalizing d with
  | zero =>
    -- routes of different hashes differ at the last level at the latest
    obtain rfl : d = levels := hlevels
    exact absurd (eq_of_route_eq hd) hne
  | succ left ih =>
    have hlt : (route aHash d).length < levels := by rw [length_route]; omega
    have hcard := Bitmap.card_single (chunk_lt aHash d)
    have only {n : Node K V} (hn : Valid (route aHash (d + 1)) n) (j : Nat) (m : Node K V)
        (hm : child? (.single (chunk aHash d)) [n] j = some m) :
        Valid (route aHash d ++ [j]) m := by
      rw [child?_single (chunk_lt _ _)] at hm
      split_ifs at hm with hj
      obtain rfl := Option.some.inj hm
      rwa [hj, ← route_succ]
    by_cases hchunk : chunk aHash d = chunk bHash d
    · obtain ⟨hvalid, hbranch⟩ :=
        ih (d + 1) (by omega) (by rw [route_succ, route_succ, hd, hchunk])
      rw [join_go_of_eq hchunk]
      refine ⟨.branch hlt hcard (List.cons_ne_nil _ _) (fun n hn => ?_) (only hvalid), rfl⟩
      obtain rfl : _ = n := List.singleton_inj.1 hn
      exact hbranch
    · obtain ⟨hno, heq⟩ := join_go_of_ne a b left hchunk
      rw [heq]
      refine ⟨valid_insertIdx hlt hcard (List.cons_ne_nil _ _) (only (ha _)) (chunk_lt _ _) hno ?_,
        rfl⟩
      rw [hd, ← route_succ]
      exact hb _

theorem valid_join {a b : Node K V} {aHash bHash : UInt64} {path : List Nat}
    (ha : ∀ d, Valid (route aHash d) a) (hb : ∀ d, Valid (route bHash d) b)
    (hne : aHash ≠ bHash) (hlt : path.length ≤ levels) (hpa : route aHash path.length = path)
    (hpb : route bHash path.length = path) :
    Valid path (join path.length a aHash b bHash) := by
  have h := (valid_join_go ha hb hne (levels - path.length) path.length (by omega)
    (hpa.trans hpb.symm)).1
  rwa [hpa] at h

theorem Valid.insert {path : List Nat} {n : Node K V} (hn : Valid path n)
    (hlen : path.length ≤ levels) (key : K) (value : V)
    (hr : route (hash key) path.length = path) :
    Valid path (n.insert (hash key) key value path.length).1 := by
  -- a leaf or bucket with another hash is joined with a leaf for the key
  have hleaf (d : Nat) : Valid (route (hash key) d) (.leaf (hash key) key value) :=
    .leaf rfl (by rw [length_route])
  induction hn with
  | @leaf path h k v hash_eq on_route =>
    rw [Node.insert]
    split_ifs with hh hk
    · exact .leaf rfl hr
    · subst hh
      refine .bucket (Nat.le_refl 2) ?_ ?_ hr
      · simpa using hash_eq
      · simpa using hk
    · exact valid_join (fun d => .leaf hash_eq (by rw [length_route])) hleaf hh hlen on_route hr
  | @bucket path h entries several hash_eq distinct on_route =>
    rw [Node.insert]
    split_ifs with hh
    · subst hh
      refine .bucket (Nat.le_trans several Bucket.length_le_length_insert) ?_ ?_ hr
      · rw [Bucket.keys_insert]
        split_ifs
        · exact hash_eq
        · simpa [or_imp, forall_and] using hash_eq
      · rw [Bucket.keys_insert]
        split_ifs with hc
        · exact distinct
        · refine List.pairwise_append.2 ⟨distinct, List.pairwise_singleton _ _, ?_⟩
          intro k hk k' hk'
          rw [List.mem_singleton.1 hk']
          exact Bucket.beq_eq_false_of_not_contains (by simpa using hc) hk
    · exact valid_join (fun d => .bucket several hash_eq distinct (by rw [length_route])) hleaf hh
        hlen on_route hr
  | @branch path slots children shallow card_eq nonempty only below ih =>
    have hr' : route (hash key) (path ++ [chunk (hash key) path.length]).length =
        path ++ [chunk (hash key) path.length] := by
      rw [List.length_append, List.length_singleton, route_succ, hr]
    cases hc : child? slots children (chunk (hash key) path.length) with
    | none =>
      obtain ⟨hno, heq⟩ := insert_branch_of_none key value card_eq hc
      rw [heq]
      refine valid_insertIdx shallow card_eq nonempty below (chunk_lt _ _) hno ?_
      exact .leaf rfl hr'
    | some n =>
      have hvalid := ih _ n hc (by rw [List.length_append]; exact shallow) hr'
      rw [List.length_append, List.length_singleton] at hvalid
      rw [insert_branch_of_some hc]
      refine .branch shallow ?_ ?_ ?_
        (below_set below (has_of_child? hc) (rank_lt_length hc) hvalid)
      · rw [List.length_set, card_eq]
      · simpa using nonempty
      · -- an only child is a branch, and stays one
        intro m hm
        obtain ⟨rfl, rfl⟩ := eq_singleton_of_set (getElem?_rank hc) hm
        exact isBranch_insert (only n rfl)

/-! ### Erasing -/

theorem valid_ofEntries {path : List Nat} {h : UInt64} {entries : List (K × V)}
    (some_left : entries ≠ []) (hash_eq : ∀ k ∈ entries.map (·.1), hash k = h)
    (distinct : (entries.map (·.1)).Pairwise fun a b => (a == b) = false)
    (on_route : route h path.length = path) : Valid path (ofEntries h entries) := by
  match entries with
  | [] => exact absurd rfl some_left
  | [(k, v)] => exact .leaf (hash_eq k (by simp)) on_route
  | _ :: _ :: _ => exact .bucket (by simp) hash_eq distinct on_route

theorem valid_collapse {path : List Nat} {slots : Bitmap} {children : List (Node K V)}
    (shallow : path.length < levels) (card_eq : slots.card = children.length)
    (nonempty : children ≠ [])
    (below : ∀ i n, child? slots children i = some n → Valid (path ++ [i]) n) :
    Valid path (collapse slots children) := by
  match children with
  | [] => exact absurd rfl nonempty
  | [n] =>
    rw [collapse]
    split_ifs with hb
    · refine .branch shallow card_eq nonempty (fun m hm => ?_) below
      rwa [← List.singleton_inj.1 hm]
    · obtain ⟨i, hi⟩ := Bitmap.exists_has (b := slots) (by rw [card_eq]; exact Nat.one_pos)
      obtain ⟨m, hm⟩ := exists_child? card_eq hi
      obtain rfl := List.mem_singleton.1 (mem_of_child? hm)
      exact (below i m hm).lift (by simpa using hb)
  | _ :: _ :: _ => exact .branch shallow card_eq nonempty (fun _ hm => by simp at hm) below

theorem Valid.erase?_ne_some_none {path : List Nat} {n : Node K V} (hn : Valid path n)
    (hb : n.isBranch = true) (h : UInt64) (key : K) :
    n.erase? h key path.length ≠ some none := by
  induction hn with
  | leaf => cases hb
  | bucket => cases hb
  | @branch path slots children shallow card_eq nonempty only below ih =>
    intro he
    cases hc : child? slots children (chunk h path.length) with
    | none =>
      rw [erase?_branch_of_none hc] at he
      cases he
    | some n =>
      rw [erase?_branch_of_some hc] at he
      split at he
      · cases he
      · next hn =>
        have hone : children.length ≠ 1 := by
          refine length_ne_one_of_child? hc only fun hbranch => ?_
          exact ih _ n hc hbranch (by rwa [List.length_append])
        rw [if_neg hone] at he
        cases he
      · cases he

theorem Valid.erase {path : List Nat} {n m : Node K V} (hn : Valid path n) {h : UInt64} {key : K}
    (he : n.erase? h key path.length = some (some m)) : Valid path m := by
  induction hn generalizing m with
  | leaf =>
    rw [erase?] at he
    split_ifs at he
    cases he
  | @bucket path h' entries several hash_eq distinct on_route =>
    rw [erase?] at he
    split_ifs at he with hc
    obtain rfl := Option.some.inj (Option.some.inj he)
    have hsub := (List.eraseP_sublist (p := fun e : K × V => e.1 == key) (l := entries)).map (·.1)
    have hlen := Bucket.length_eraseP (Bool.and_eq_true_iff.1 hc).2
    exact valid_ofEntries (List.ne_nil_of_length_pos (by omega))
      (fun k hk => hash_eq k (hsub.subset hk)) (distinct.sublist hsub) on_route
  | @branch path slots children shallow card_eq nonempty only below ih =>
    cases hc : child? slots children (chunk h path.length) with
    | none =>
      rw [erase?_branch_of_none hc] at he
      cases he
    | some n =>
      have hhas := has_of_child? hc
      have hlt := rank_lt_length hc
      rw [erase?_branch_of_some hc] at he
      split at he
      · cases he
      · next hn =>
        -- the child is gone: this leaves nothing only where it was the only one
        by_cases hone : children.length = 1
        · rw [if_pos hone] at he
          cases he
        rw [if_neg hone] at he
        obtain rfl := Option.some.inj (Option.some.inj he)
        have hlen := List.length_eraseIdx_of_lt hlt
        have hcard := slots.card_remove hhas
        exact valid_collapse shallow (by omega) (List.ne_nil_of_length_pos (by omega))
          (below_eraseIdx below hhas)
      · next n' hn =>
        obtain rfl := Option.some.inj (Option.some.inj he)
        have hvalid := ih _ n hc (by rwa [List.length_append])
        exact valid_collapse shallow (by rw [List.length_set, card_eq]) (by simpa using nonempty)
          (below_set below hhas hlt hvalid)

end Node

/-! ### Valid maps -/

variable [BEq K] [Hashable K] {m m' : HashTrie K V}

/-- A map whose root, if it has one, is a valid node. -/
def Valid (m : HashTrie K V) : Prop := ∀ n, m.root = some n → n.Valid []

theorem valid_empty : (empty : HashTrie K V).Valid := by
  rintro n ⟨⟩

theorem Valid.insert (hm : m.Valid) (key : K) (value : V) : (m.insert key value).Valid := by
  intro n hn
  rw [HashTrie.insert] at hn
  split at hn
  · obtain rfl := Option.some.inj hn
    exact .leaf rfl rfl
  · next root hroot =>
    obtain rfl := Option.some.inj hn
    exact (hm root hroot).insert (Nat.zero_le _) key value rfl

theorem Valid.erase (hm : m.Valid) {key : K} (he : m.erase? key = some m') : m'.Valid := by
  intro n hn
  obtain ⟨root', hroot', rfl⟩ := Option.map_eq_some_iff.1 he
  obtain ⟨root, hroot, herase⟩ := Option.bind_eq_some_iff.1 hroot'
  obtain rfl : root' = some n := hn
  exact (hm root hroot).erase herase

end HashTrie

end TraceOpt
