import TraceOpt.Proofs.HashTrie.Invariant

/-!
# Looking up after an update

Two keys are the same to a trie when they have the same hash and are equal.  Below, an update of a
valid node is seen by looking up the key it is about, and by nothing else:

* `Node.Valid.find?_insert`, `Node.Valid.insert_snd`: what inserting a key changes, and that it
  reports whether the key is new.
* `Node.Valid.erase?_eq_none_iff`, `Node.Valid.find?_erase`: when erasing a key fails, and what it
  changes otherwise.
* `find?_insert`, `erase?_eq_none_iff`, `find?_erase`: the same for whole maps.
-/

namespace TraceOpt

namespace HashTrie

universe u v

variable {K : Type u} {V : Type v} [BEq K]

/-! ### Buckets -/

namespace Bucket

variable {key k : K} {value : V} {entries : List (K × V)}

theorem find?_cons (e : K × V) :
    find? k (e :: entries) = if e.1 == k then some e.2 else find? k entries := by
  rw [find?, List.find?_cons]
  split <;> simp_all [find?]

theorem find?_eq_none_iff : find? key entries = none ↔ contains key entries = false := by
  simp [find?, contains]

theorem find?_insert [EquivBEq K] :
    find? k (insert key value entries) = if key == k then some value else find? k entries := by
  induction entries with
  | nil => rw [insert, find?_cons]
  | cons e rest ih =>
    by_cases he : (e.1 == key) = true <;> by_cases hk : (key == k) = true
    · rw [insert, if_pos he, find?_cons, if_pos (BEq.trans he hk), if_pos hk]
    · have hek : ¬ (e.1 == k) = true := fun h => hk (BEq.trans (BEq.symm he) h)
      rw [insert, if_pos he, find?_cons, find?_cons, if_neg hek, if_neg hek, if_neg hk]
    · have hek : ¬ (e.1 == k) = true := fun h => he (BEq.trans h (BEq.symm hk))
      rw [insert, if_neg he, find?_cons, if_neg hek, ih, if_pos hk, if_pos hk]
    · rw [insert, if_neg he, find?_cons, find?_cons, ih, if_neg hk, if_neg hk]

theorem find?_eraseP [EquivBEq K]
    (distinct : (entries.map (·.1)).Pairwise fun a b => (a == b) = false) :
    find? k (entries.eraseP (·.1 == key)) = if key == k then none else find? k entries := by
  induction entries with
  | nil => simp [find?]
  | cons e rest ih =>
    obtain ⟨hrest, distinct⟩ := List.pairwise_cons.1 distinct
    by_cases he : (e.1 == key) = true
    · have herase : (e :: rest).eraseP (·.1 == key) = rest := List.eraseP_cons_of_pos he
      rw [herase]
      split_ifs with hk
      · rw [find?_eq_none_iff, contains_eq_any, List.any_eq_false]
        intro k' hk' hkk
        have hek := BEq.trans he (BEq.trans hk (BEq.symm hkk))
        rw [hrest k' hk'] at hek
        cases hek
      · have hek : ¬ (e.1 == k) = true := fun h => hk (BEq.trans (BEq.symm he) h)
        rw [find?_cons, if_neg hek]
    · have herase : (e :: rest).eraseP (·.1 == key) = e :: rest.eraseP (·.1 == key) :=
        List.eraseP_cons_of_neg he
      rw [herase, find?_cons, ih distinct]
      split_ifs with hek hk
      · exact absurd (BEq.trans hek (BEq.symm hk)) he
      · rw [find?_cons, if_pos hek]
      · rfl
      · rw [find?_cons, if_neg hek]

end Bucket

namespace Node

/-! ### Nodes that hold one hash -/

variable {h : UInt64} {k : K}

theorem find?_leaf {d : Nat} {h' : UInt64} {key : K} {value : V} :
    find? h k d (leaf h' key value) = if h' = h ∧ key == k then some value else none := by
  simp [find?]

theorem find?_bucket {d : Nat} {h' : UInt64} {entries : List (K × V)} :
    find? h k d (bucket h' entries) = if h' = h then Bucket.find? k entries else none := by
  rw [find?]

theorem find?_depth {n : Node K V} (hb : n.isBranch = false) (d d' : Nat) :
    find? h k d n = find? h k d' n := by
  cases n with
  | leaf => rw [find?_leaf, find?_leaf]
  | bucket => rw [find?_bucket, find?_bucket]
  | branch => cases hb

theorem find?_ofEntries {d : Nat} {h' : UInt64} (entries : List (K × V)) :
    find? h k d (ofEntries h' entries) = if h' = h then Bucket.find? k entries else none := by
  match entries with
  | [] => exact find?_bucket
  | [(key, value)] =>
    rw [ofEntries, find?_leaf, Bucket.find?_cons]
    by_cases hh : h' = h <;> simp [hh, Bucket.find?]
  | _ :: _ :: _ => exact find?_bucket

/-- Looking up in two joined nodes, each of which holds one hash, is looking up in both. -/
theorem find?_join_go {a b : Node K V} {aHash bHash : UInt64} {x y : Option V}
    (ha : ∀ d, find? h k d a = x) (hx : h ≠ aHash → x = none)
    (hb : ∀ d, find? h k d b = y) (hy : h ≠ bHash → y = none)
    (hne : aHash ≠ bHash) (left d : Nat) (hlevels : d + left = levels)
    (hd : route aHash d = route bHash d) :
    find? h k d (join.go a aHash b bHash left d) = x.or y := by
  induction left generalizing d with
  | zero =>
    -- routes of different hashes differ at the last level at the latest
    obtain rfl : d = levels := hlevels
    exact absurd (eq_of_route_eq hd) hne
  | succ left ih =>
    have hxd : chunk h d ≠ chunk aHash d → x = none := fun hc => hx fun heq => hc (by rw [heq])
    have hyd : chunk h d ≠ chunk bHash d → y = none := fun hc => hy fun heq => hc (by rw [heq])
    by_cases hchunk : chunk aHash d = chunk bHash d
    · rw [join_go_of_eq hchunk, find?_branch, child?_single (chunk_lt _ _)]
      split_ifs with hc
      · exact ih (d + 1) (by omega) (by rw [route_succ, route_succ, hd, hchunk])
      · rw [hxd hc, hyd (hchunk ▸ hc)]
        rfl
    · -- the routes fork here, and the hash takes one of them at most
      obtain ⟨hno, heq⟩ := join_go_of_ne a b left hchunk
      rw [heq, find?_branch, child?_insertIdx (chunk_lt _ _) hno
        (Bitmap.card_single (chunk_lt _ _)), child?_single (chunk_lt _ _)]
      split_ifs with hc hc'
      · rw [Option.bind_some, hb, hxd (hc ▸ Ne.symm hchunk), Option.none_or]
      · rw [Option.bind_some, ha, hyd hc, Option.or_none]
      · rw [hxd hc', hyd hc]
        rfl

/-! ### Inserting -/

/-- Looking up where a leaf was joined on to a node with another hash. -/
theorem find?_join_leaf {a : Node K V} {aHash bHash : UInt64} {key : K} {value : V}
    {path : List Nat} (hb : a.isBranch = false) (ha : h ≠ aHash → find? h k path.length a = none)
    (hne : aHash ≠ bHash) (hlen : path.length ≤ levels) (hra : route aHash path.length = path)
    (hrb : route bHash path.length = path) :
    find? h k path.length (join path.length a aHash (.leaf bHash key value) bHash) =
      if bHash = h ∧ key == k then some value else find? h k path.length a := by
  rw [join, find?_join_go (fun d => find?_depth hb d path.length) ha (fun d => find?_leaf) ?_ hne _
    _ (by omega) (hra.trans hrb.symm)]
  · split_ifs with hk
    · rw [ha fun heq => hne (heq.symm.trans hk.1.symm), Option.none_or]
    · rw [Option.or_none]
  · intro hh
    rw [if_neg fun hk => hh hk.1.symm]

variable [Hashable K]

/-- Inserting reports whether the key is new. -/
theorem Valid.insert_snd {path : List Nat} {n : Node K V} (hn : Valid path n) (key : K)
    (value : V) :
    (n.insert (hash key) key value path.length).2 =
      (find? (hash key) key path.length n).isNone := by
  induction hn with
  | @leaf path h' key' value' hash_eq on_route =>
    rw [Node.insert, find?_leaf]
    by_cases hh : h' = hash key
    · by_cases heq : (key' == key) = true <;> simp [hh, heq]
    · simp [hh]
  | @bucket path h' entries several hash_eq distinct on_route =>
    rw [Node.insert, find?_bucket]
    by_cases hh : h' = hash key
    · rw [if_pos hh, if_pos hh]
      cases hf : Bucket.find? key entries with
      | none => simp [Bucket.find?_eq_none_iff.1 hf]
      | some v =>
        have hc : Bucket.contains key entries ≠ false := fun hc => by
          rw [Bucket.find?_eq_none_iff.2 hc] at hf
          cases hf
        simpa using hc
    · simp [hh]
  | @branch path slots children shallow card_eq nonempty only below ih =>
    rw [find?_branch]
    cases hc : child? slots children (chunk (hash key) path.length) with
    | none =>
      rw [(insert_branch_of_none key value card_eq hc).2]
      rfl
    | some n =>
      have hsnd := ih _ n hc
      rw [List.length_append, List.length_singleton] at hsnd
      rw [insert_branch_of_some hc, hsnd, Option.bind_some]

theorem Valid.find?_insert [EquivBEq K] {path : List Nat} {n : Node K V}
    (hn : Valid path n) (hlen : path.length ≤ levels) (key : K) (value : V)
    (hr : route (hash key) path.length = path) :
    find? h k path.length (n.insert (hash key) key value path.length).1 =
      if hash key = h ∧ key == k then some value else find? h k path.length n := by
  induction hn with
  | @leaf path h' key' value' hash_eq on_route =>
    rw [Node.insert]
    by_cases hh : h' = hash key
    · rw [if_pos hh]
      by_cases heq : (key' == key) = true
      · rw [if_pos heq, find?_leaf, find?_leaf, hh]
        split_ifs with hk hk'
        · rfl
        · exact absurd ⟨hk'.1, BEq.trans (BEq.symm heq) hk'.2⟩ hk
        · rfl
      · rw [if_neg heq, find?_bucket, Bucket.find?_cons, Bucket.find?_cons, find?_leaf, hh]
        by_cases hhk : hash key = h
        · simp only [hhk, if_true, true_and]
          split_ifs with hk' hk
          · exact absurd (BEq.trans hk' (BEq.symm hk)) heq
          · rfl
          · rfl
          · rfl
        · simp [hhk]
    · rw [if_neg hh]
      refine find?_join_leaf rfl (fun hne => ?_) hh hlen on_route hr
      rw [find?_leaf, if_neg fun hk => hne hk.1.symm]
  | @bucket path h' entries several hash_eq distinct on_route =>
    rw [Node.insert]
    by_cases hh : h' = hash key
    · rw [if_pos hh, find?_bucket, find?_bucket, Bucket.find?_insert, hh]
      by_cases hhk : hash key = h <;> simp [hhk]
    · rw [if_neg hh]
      refine find?_join_leaf rfl (fun hne => ?_) hh hlen on_route hr
      rw [find?_bucket, if_neg fun hk => hne hk.symm]
  | @branch path slots children shallow card_eq nonempty only below ih =>
    cases hc : child? slots children (chunk (hash key) path.length) with
    | none =>
      obtain ⟨hno, heq⟩ := insert_branch_of_none key value card_eq hc
      rw [heq, find?_branch, find?_branch, child?_insertIdx (chunk_lt _ _) hno card_eq]
      by_cases hchunk : chunk h path.length = chunk (hash key) path.length
      · rw [if_pos hchunk, Option.bind_some, find?_leaf, hchunk, hc]
        rfl
      · rw [if_neg hchunk, if_neg]
        rintro ⟨rfl, -⟩
        exact hchunk rfl
    | some n =>
      rw [insert_branch_of_some hc, find?_branch, find?_branch,
        child?_set (has_of_child? hc) (rank_lt_length hc)]
      by_cases hchunk : chunk h path.length = chunk (hash key) path.length
      · have hfind := ih _ n hc (by rw [List.length_append]; exact shallow)
          (by rw [List.length_append, List.length_singleton, route_succ, hr])
        rw [List.length_append, List.length_singleton] at hfind
        rw [if_pos hchunk, Option.bind_some, hfind, hchunk, hc, Option.bind_some]
      · rw [if_neg hchunk, if_neg]
        rintro ⟨rfl, -⟩
        exact hchunk rfl

/-! ### Erasing -/

/-- A leaf or bucket has no key whose hash picks another slot on the way to it. -/
theorem Valid.find?_eq_none_of_chunk_ne {path : List Nat} {i d : Nat} {n : Node K V}
    (hn : Valid (path ++ [i]) n) (hb : n.isBranch = false) (hi : chunk h path.length ≠ i) :
    find? h k d n = none := by
  have hne {h' : UInt64} (hr : route h' (path ++ [i]).length = path ++ [i]) : h' ≠ h := by
    rintro rfl
    rw [List.length_append, List.length_singleton, route_succ] at hr
    exact hi (List.singleton_inj.1 (List.append_inj' hr rfl).2)
  cases hn with
  | leaf hash_eq on_route => rw [find?_leaf, if_neg fun hk => hne on_route hk.1]
  | bucket several hash_eq distinct on_route => rw [find?_bucket, if_neg (hne on_route)]
  | branch => cases hb

theorem find?_collapse {path : List Nat} {slots : Bitmap} {children : List (Node K V)}
    (card_eq : slots.card = children.length)
    (below : ∀ i n, child? slots children i = some n → Valid (path ++ [i]) n) :
    find? h k path.length (collapse slots children) =
      find? h k path.length (branch slots children) := by
  match children with
  | [] => rfl
  | [n] =>
    rw [collapse]
    split_ifs with hb
    · rfl
    · -- the child takes the place of the branch, and has no key that the branch did not lead to
      have hb' : n.isBranch = false := by simpa using hb
      obtain ⟨i, hi⟩ := Bitmap.exists_has (b := slots) (by rw [card_eq]; exact Nat.one_pos)
      obtain ⟨m, hm⟩ := exists_child? card_eq hi
      obtain rfl := List.mem_singleton.1 (mem_of_child? hm)
      rw [find?_branch]
      cases hc : child? slots [m] (chunk h path.length) with
      | none =>
        refine (below i m hm).find?_eq_none_of_chunk_ne hb' fun hci => ?_
        rw [hci, hm] at hc
        cases hc
      | some m' =>
        obtain rfl := List.mem_singleton.1 (mem_of_child? hc)
        exact find?_depth hb' _ _
  | _ :: _ :: _ => rfl

theorem Valid.erase?_eq_none_iff {path : List Nat} {n : Node K V} (hn : Valid path n) :
    n.erase? h k path.length = none ↔ find? h k path.length n = none := by
  induction hn with
  | leaf => rw [erase?, find?_leaf]; split_ifs <;> simp_all
  | bucket => rw [erase?, find?_bucket]; split_ifs <;> simp_all [Bucket.find?_eq_none_iff]
  | @branch path slots children shallow card_eq nonempty only below ih =>
    rw [find?_branch]
    cases hc : child? slots children (chunk h path.length) with
    | none => simp [erase?_branch_of_none hc]
    | some n =>
      have hiff := ih _ n hc
      rw [List.length_append, List.length_singleton] at hiff
      rw [erase?_branch_of_some hc, Option.bind_some, ← hiff]
      split
      · simp_all
      · split_ifs <;> simp_all
      · simp_all

theorem Valid.find?_erase [EquivBEq K] {path : List Nat} {n : Node K V} (hn : Valid path n)
    {h' : UInt64} {key : K} {left : Option (Node K V)}
    (he : n.erase? h' key path.length = some left) :
    left.bind (find? h k path.length) =
      if h' = h ∧ key == k then none else find? h k path.length n := by
  induction hn generalizing left with
  | @leaf path lh lkey value hash_eq on_route =>
    rw [erase?] at he
    split_ifs at he with hk
    obtain rfl := Option.some.inj he
    simp only [Bool.and_eq_true, decide_eq_true_eq] at hk
    rw [find?_leaf, Option.bind_none, hk.1]
    split_ifs with hsame hleaf
    · rfl
    · exact absurd ⟨hleaf.1, BEq.trans (BEq.symm hk.2) hleaf.2⟩ hsame
    · rfl
  | @bucket path bh entries several hash_eq distinct on_route =>
    rw [erase?] at he
    split_ifs at he with hk
    obtain rfl := Option.some.inj he
    simp only [Bool.and_eq_true, decide_eq_true_eq] at hk
    rw [find?_bucket, Option.bind_some, find?_ofEntries, Bucket.find?_eraseP distinct, hk.1]
    by_cases hh : h' = h <;> simp [hh]
  | @branch path slots children shallow card_eq nonempty only below ih =>
    cases hc : child? slots children (chunk h' path.length) with
    | none =>
      rw [erase?_branch_of_none hc] at he
      cases he
    | some n =>
      have hhas := has_of_child? hc
      have hlt := rank_lt_length hc
      rw [erase?_branch_of_some hc] at he
      split at he
      · cases he
      · next hn =>
        have herase : n.erase? h' key (path ++ [chunk h' path.length]).length = some none := by
          rwa [List.length_append]
        have hfind := ih _ n hc herase
        rw [List.length_append, List.length_singleton, Option.bind_none] at hfind
        -- erasing never empties a branch, so the child is no branch and has neighbours
        have hone : children.length ≠ 1 := by
          refine length_ne_one_of_child? hc only fun hbranch => ?_
          exact (below _ n hc).erase?_ne_some_none hbranch h' key herase
        rw [if_neg hone] at he
        obtain rfl := Option.some.inj he
        have hlen := List.length_eraseIdx_of_lt hlt
        have hcard := slots.card_remove hhas
        rw [Option.bind_some, find?_collapse (by omega) (below_eraseIdx below hhas), find?_branch,
          find?_branch, child?_eraseIdx hhas]
        by_cases hchunk : chunk h path.length = chunk h' path.length
        · rw [if_pos hchunk, hchunk, hc, Option.bind_none, Option.bind_some, ← hfind]
        · rw [if_neg hchunk, if_neg]
          rintro ⟨rfl, -⟩
          exact hchunk rfl
      · next m hm =>
        have herase : n.erase? h' key (path ++ [chunk h' path.length]).length = some (some m) := by
          rwa [List.length_append]
        have hfind := ih _ n hc herase
        have hvalid := (below _ n hc).erase herase
        rw [List.length_append, List.length_singleton, Option.bind_some] at hfind
        obtain rfl := Option.some.inj he
        rw [Option.bind_some, find?_collapse (by rw [List.length_set, card_eq])
          (below_set below hhas hlt hvalid), find?_branch, find?_branch, child?_set hhas hlt]
        by_cases hchunk : chunk h path.length = chunk h' path.length
        · rw [if_pos hchunk, hchunk, hc, Option.bind_some, Option.bind_some, hfind]
        · rw [if_neg hchunk, if_neg]
          rintro ⟨rfl, -⟩
          exact hchunk rfl

end Node

/-! ### Maps -/

variable [Hashable K] {m m' : HashTrie K V}

/-- Whether two keys are the same to a trie: they have the same hash and are equal. -/
def SameKey (a b : K) : Prop := hash a = hash b ∧ (a == b) = true

instance : DecidableRel (SameKey (K := K)) := fun a b =>
  inferInstanceAs (Decidable (hash a = hash b ∧ (a == b) = true))

theorem find?_insert [EquivBEq K] (hm : m.Valid) (key : K) (value : V) (k : K) :
    (m.insert key value).find? k = if SameKey key k then some value else m.find? k := by
  rw [insert, find?, find?]
  cases hroot : m.root with
  | none => exact Node.find?_leaf (d := 0)
  | some n => exact (hm n hroot).find?_insert (Nat.zero_le _) key value rfl

theorem size_insert (hm : m.Valid) (key : K) (value : V) :
    (m.insert key value).size = if (m.find? key).isNone then m.size + 1 else m.size := by
  rw [insert, find?]
  cases hroot : m.root with
  | none => rfl
  | some n =>
    have hsnd := (hm n hroot).insert_snd key value
    rw [List.length_nil] at hsnd
    simp only [hsnd, Option.bind_some]

theorem erase?_eq_none_iff (hm : m.Valid) (key : K) : m.erase? key = none ↔ m.find? key = none := by
  rw [erase?, find?, Option.map_eq_none_iff]
  cases hroot : m.root with
  | none => simp
  | some n => exact (hm n hroot).erase?_eq_none_iff

theorem find?_erase [EquivBEq K] (hm : m.Valid) {key : K} (he : m.erase? key = some m') (k : K) :
    m'.find? k = if SameKey key k then none else m.find? k := by
  obtain ⟨left, hleft, rfl⟩ := Option.map_eq_some_iff.1 he
  obtain ⟨n, hroot, herase⟩ := Option.bind_eq_some_iff.1 hleft
  rw [find?, find?, hroot]
  exact (hm n hroot).find?_erase herase

theorem size_erase {key : K} (he : m.erase? key = some m') : m'.size = m.size - 1 := by
  obtain ⟨left, -, rfl⟩ := Option.map_eq_some_iff.1 he
  rfl

end HashTrie

end TraceOpt
