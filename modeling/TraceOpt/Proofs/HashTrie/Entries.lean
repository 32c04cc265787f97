import TraceOpt.Proofs.HashTrie.FiniteMap

/-!
# The entries of a trie

The entries below a valid node lie on the route to it, and looking up a key finds the entry of that
key.  An update is an edit of the list of entries at one place, so that a map counts its entries.

* `Node.Valid.route_of_mem`: the hash of an entry leads to the node that holds it.
* `Node.Valid.find?_eq_some_iff`: looking up finds what is listed.
* `Node.Valid.toList_insert_of_none`, `Node.Valid.toList_insert_of_some`,
  `Node.Valid.toList_erase`: updates as edits of the list of entries.
* `find?_eq_some_iff`, `toList_insert_of_none`, `toList_insert_of_some`, `toList_erase`: the same
  for whole maps.
* `size_replay`: after any history a map counts its entries.
-/

namespace TraceOpt

namespace HashTrie

universe u v

variable {K : Type u} {V : Type v}

/-- Every place among the children belongs to a slot. -/
theorem Bitmap.exists_rank_eq {b : Bitmap} {p : Nat} (h : p < b.card) :
    ∃ i, b.has i = true ∧ b.rank i = p := by
  have hbelow (j : Nat) (hj : p < b.rank j) : ∃ i, b.has i = true ∧ b.rank i = p := by
    induction j with
    | zero => simp at hj
    | succ j ih =>
      by_cases hlt : p < b.rank j
      · exact ih hlt
      · rw [rank_succ] at hj
        split_ifs at hj with hhas
        · exact ⟨j, hhas, by omega⟩
        · omega
  exact hbelow 32 h

/-! ### Buckets -/

namespace Bucket

variable [BEq K] {key k : K} {value v : V} {entries : List (K × V)}

theorem find?_eq_some_iff [EquivBEq K]
    (distinct : (entries.map (·.1)).Pairwise fun a b => (a == b) = false) :
    find? k entries = some v ↔ ∃ e ∈ entries, (e.1 == k) = true ∧ e.2 = v := by
  induction entries with
  | nil => simp [find?]
  | cons e rest ih =>
    obtain ⟨hrest, distinct⟩ := List.pairwise_cons.1 distinct
    rw [find?_cons]
    split_ifs with hek
    · constructor
      · exact fun hv => ⟨e, List.mem_cons_self, hek, Option.some.inj hv⟩
      · rintro ⟨e', he', hk, rfl⟩
        rcases List.mem_cons.1 he' with rfl | he'
        · rfl
        · -- no other entry has this key
          have hne := hrest e'.1 (List.mem_map_of_mem he')
          rw [BEq.trans hek (BEq.symm hk)] at hne
          cases hne
    · rw [ih distinct]
      simp [hek]

theorem insert_of_not_contains (h : contains key entries = false) :
    insert key value entries = entries ++ [(key, value)] := by
  induction entries with
  | nil => rfl
  | cons e rest ih =>
    obtain ⟨he, hrest⟩ := Bool.or_eq_false_iff.1 h
    rw [insert, if_neg (Bool.not_eq_true _ ▸ he), ih hrest]
    rfl

theorem insert_of_find? (value : V) (h : find? key entries = some v) :
    ∃ before k after, (k == key) = true ∧ entries = before ++ (k, v) :: after ∧
      insert key value entries = before ++ (k, value) :: after := by
  induction entries with
  | nil => cases h
  | cons e rest ih =>
    obtain ⟨k, v'⟩ := e
    rw [find?_cons] at h
    split_ifs at h with hk
    · obtain rfl := Option.some.inj h
      exact ⟨[], k, rest, hk, rfl, by rw [insert, if_pos hk]; rfl⟩
    · obtain ⟨before, k', after, hk', hall, hinsert⟩ := ih h
      refine ⟨(k, v') :: before, k', after, hk', by rw [hall]; rfl, ?_⟩
      rw [insert, if_neg hk, hinsert]
      rfl

end Bucket

namespace Node

/-! ### Children and their entries -/

section Children

variable {slots : Bitmap} {children : List (Node K V)} {n : Node K V} {e : K × V} {p : Nat}

theorem exists_slot (hcard : slots.card = children.length) (hp : children[p]? = some n) :
    ∃ i, slots.rank i = p ∧ child? slots children i = some n := by
  obtain ⟨hlt, -⟩ := List.getElem?_eq_some_iff.1 hp
  obtain ⟨i, hhas, hrank⟩ := Bitmap.exists_rank_eq (hcard ▸ hlt)
  exact ⟨i, hrank, by rw [child?, if_pos hhas, hrank, hp]⟩

theorem mem_listToList : e ∈ listToList children ↔ ∃ n ∈ children, e ∈ n.toList := by
  rw [listToList_eq_flatMap, List.mem_flatMap]

theorem mem_toList_branch (hcard : slots.card = children.length) :
    e ∈ (branch slots children).toList ↔
      ∃ i n, child? slots children i = some n ∧ e ∈ n.toList := by
  rw [toList, mem_listToList]
  constructor
  · rintro ⟨n, hn, he⟩
    obtain ⟨p, hp⟩ := List.mem_iff_getElem?.1 hn
    obtain ⟨i, -, hi⟩ := exists_slot hcard hp
    exact ⟨i, n, hi, he⟩
  · rintro ⟨i, n, hi, he⟩
    exact ⟨n, mem_of_child? hi, he⟩

theorem listToList_append (a b : List (Node K V)) :
    listToList (a ++ b) = listToList a ++ listToList b := by
  simp only [listToList_eq_flatMap, List.flatMap_append]

/-- The entries before and after those of one child belong to other children, and stay when that
child is replaced or dropped. -/
theorem listToList_split (hp : children[p]? = some n) :
    ∃ before after, listToList children = before ++ n.toList ++ after ∧
      (∀ e ∈ before ++ after, ∃ q m, q ≠ p ∧ children[q]? = some m ∧ e ∈ m.toList) ∧
      (∀ m, listToList (children.set p m) = before ++ m.toList ++ after) ∧
      listToList (children.eraseIdx p) = before ++ after := by
  obtain ⟨hlt, rfl⟩ := List.getElem?_eq_some_iff.1 hp
  refine ⟨listToList (children.take p), listToList (children.drop (p + 1)), ?_, fun e he => ?_,
    fun m => ?_, ?_⟩
  · rw [List.append_assoc, ← listToList, List.getElem_cons_drop hlt, ← listToList_append,
      List.take_append_drop]
  · rw [← listToList_append, ← List.eraseIdx_eq_take_drop_succ] at he
    obtain ⟨m, hm, he⟩ := mem_listToList.1 he
    obtain ⟨q, hq, hget⟩ := List.mem_eraseIdx_iff_getElem?.1 hm
    exact ⟨q, m, hq, hget, he⟩
  · rw [List.set_eq_take_append_cons_drop, if_pos hlt, listToList_append, listToList,
      List.append_assoc]
  · rw [List.eraseIdx_eq_take_drop_succ, listToList_append]

/-- A further child puts its entries in one place. -/
theorem listToList_insertIdx (hp : p ≤ children.length) (n : Node K V) :
    ∃ before after, listToList children = before ++ after ∧
      listToList (children.insertIdx p n) = before ++ n.toList ++ after := by
  have hself : (children.insertIdx p n)[p]? = some n := by
    rw [List.getElem?_insertIdx_self, if_pos hp]
  obtain ⟨before, after, hall, -, -, herase⟩ := listToList_split hself
  rw [List.eraseIdx_insertIdx_self] at herase
  exact ⟨before, after, herase, hall⟩

theorem toList_collapse : (collapse slots children).toList = listToList children := by
  match children with
  | [] => rfl
  | [n] =>
    rw [collapse]
    split_ifs
    · rfl
    · simp [listToList]
  | _ :: _ :: _ => rfl

theorem toList_ofEntries {h : UInt64} (entries : List (K × V)) :
    (ofEntries h entries).toList = entries := by
  match entries with
  | [] | [_] | _ :: _ :: _ => rfl

theorem toList_join_go {a b : Node K V} {aHash bHash : UInt64} (hne : aHash ≠ bHash)
    (left d : Nat) (hlevels : d + left = levels) (hd : route aHash d = route bHash d) :
    (join.go a aHash b bHash left d).toList = a.toList ++ b.toList ∨
      (join.go a aHash b bHash left d).toList = b.toList ++ a.toList := by
  induction left generalizing d with
  | zero =>
    -- routes of different hashes differ at the last level at the latest
    obtain rfl : d = levels := hlevels
    exact absurd (eq_of_route_eq hd) hne
  | succ left ih =>
    by_cases hchunk : chunk aHash d = chunk bHash d
    · rw [join_go_of_eq hchunk, toList, listToList, listToList, List.append_nil]
      exact ih (d + 1) (by omega) (by rw [route_succ, route_succ, hd, hchunk])
    · rw [join.go, if_neg hchunk]
      by_cases hlt : chunk aHash d < chunk bHash d
      · exact Or.inl (by simp [toList, listToList, hlt])
      · exact Or.inr (by simp [toList, listToList, hlt])

/-- Joining a leaf on to a node puts its entry before or after the others. -/
theorem toList_join_leaf {a : Node K V} {aHash bHash : UInt64} {key : K} {value : V}
    {path : List Nat} (hne : aHash ≠ bHash) (hlen : path.length ≤ levels)
    (hra : route aHash path.length = path) (hrb : route bHash path.length = path) :
    ∃ before after, a.toList = before ++ after ∧
      (join path.length a aHash (.leaf bHash key value) bHash).toList =
        before ++ (key, value) :: after := by
  rcases toList_join_go (a := a) (b := .leaf bHash key value) hne (levels - path.length)
    path.length (by omega) (hra.trans hrb.symm) with h | h
  · exact ⟨a.toList, [], (List.append_nil _).symm, h⟩
  · exact ⟨[], a.toList, rfl, h⟩

end Children

/-! ### Entries of valid nodes -/

variable [BEq K] [Hashable K] {path : List Nat} {n : Node K V}

theorem Valid.route_of_mem (hn : Valid path n) {e : K × V} (he : e ∈ n.toList) :
    route (hash e.1) path.length = path := by
  induction hn with
  | leaf hash_eq on_route =>
    obtain rfl := List.mem_singleton.1 he
    rw [hash_eq, on_route]
  | bucket several hash_eq distinct on_route =>
    rw [hash_eq e.1 (List.mem_map_of_mem he), on_route]
  | @branch path slots children shallow card_eq nonempty only below ih =>
    obtain ⟨i, n, hi, he⟩ := (mem_toList_branch card_eq).1 he
    have hroute := ih i n hi he
    rw [List.length_append, List.length_singleton, route_succ] at hroute
    exact (List.append_inj' hroute rfl).1

/-- The entries below a child pick its slot. -/
theorem Valid.chunk_of_mem {i : Nat} (hn : Valid (path ++ [i]) n) {e : K × V}
    (he : e ∈ n.toList) : chunk (hash e.1) path.length = i := by
  have hroute := hn.route_of_mem he
  rw [List.length_append, List.length_singleton, route_succ] at hroute
  exact List.singleton_inj.1 (List.append_inj' hroute rfl).2

/-- The entries of a branch before and after those below one child have other hashes than any that
leads to the child, and stay when that child is replaced or dropped. -/
theorem exists_split_child {slots : Bitmap} {children : List (Node K V)} {h : UInt64}
    (card_eq : slots.card = children.length)
    (below : ∀ i m, child? slots children i = some m → Valid (path ++ [i]) m)
    (hc : child? slots children (chunk h path.length) = some n) :
    ∃ before after, listToList children = before ++ n.toList ++ after ∧
      (∀ e ∈ before ++ after, hash e.1 ≠ h) ∧
      (∀ m, listToList (children.set (slots.rank (chunk h path.length)) m) =
        before ++ m.toList ++ after) ∧
      listToList (children.eraseIdx (slots.rank (chunk h path.length))) = before ++ after := by
  obtain ⟨before, after, hall, hothers, hset, hdrop⟩ := listToList_split (getElem?_rank hc)
  refine ⟨before, after, hall, fun e he hhash => ?_, hset, hdrop⟩
  obtain ⟨q, m, hq, hm, he⟩ := hothers e he
  obtain ⟨j, hj, hchild⟩ := exists_slot card_eq hm
  -- the hash of the entry picks the slot of its own child
  rw [← hhash, (below j m hchild).chunk_of_mem he, hj] at hq
  exact hq rfl

theorem Valid.toList_ne_nil (hn : Valid path n) : n.toList ≠ [] := by
  induction hn with
  | leaf => exact List.cons_ne_nil _ _
  | bucket several =>
    intro hnil
    rw [toList] at hnil
    simp [hnil] at several
  | @branch path slots children shallow card_eq nonempty only below ih =>
    obtain ⟨n, hn⟩ := List.exists_mem_of_ne_nil _ nonempty
    obtain ⟨p, hp⟩ := List.mem_iff_getElem?.1 hn
    obtain ⟨i, -, hi⟩ := exists_slot card_eq hp
    obtain ⟨e, he⟩ := List.exists_mem_of_ne_nil _ (ih i n hi)
    exact List.ne_nil_of_mem ((mem_toList_branch card_eq).2 ⟨i, n, hi, he⟩)


/-! ### Looking up -/

theorem Valid.find?_eq_some_iff [EquivBEq K] (hn : Valid path n) {h : UInt64} {k : K} {v : V} :
    n.find? h k path.length = some v ↔
      ∃ e ∈ n.toList, hash e.1 = h ∧ (e.1 == k) = true ∧ e.2 = v := by
  induction hn with
  | @leaf path h' key value hash_eq on_route => simp [find?_leaf, toList, hash_eq, and_assoc]
  | @bucket path h' entries several hash_eq distinct on_route =>
    rw [find?_bucket, toList]
    split_ifs with hh
    · subst hh
      rw [Bucket.find?_eq_some_iff distinct]
      constructor
      · rintro ⟨e, he, hk⟩
        exact ⟨e, he, hash_eq e.1 (List.mem_map_of_mem he), hk⟩
      · rintro ⟨e, he, -, hk⟩
        exact ⟨e, he, hk⟩
    · refine ⟨fun hnone => (nomatch hnone), ?_⟩
      rintro ⟨e, he, heh, -⟩
      exact absurd ((hash_eq e.1 (List.mem_map_of_mem he)).symm.trans heh) hh
  | @branch path slots children shallow card_eq nonempty only below ih =>
    rw [find?_branch, Option.bind_eq_some_iff]
    constructor
    · rintro ⟨m, hm, hfind⟩
      have hiff := ih _ m hm
      rw [List.length_append, List.length_singleton] at hiff
      obtain ⟨e, he, hk⟩ := hiff.1 hfind
      exact ⟨e, (mem_toList_branch card_eq).2 ⟨_, m, hm, he⟩, hk⟩
    · rintro ⟨e, he, rfl, hk⟩
      obtain ⟨i, m, hm, he⟩ := (mem_toList_branch card_eq).1 he
      -- the entry lies below the slot that its hash picks
      obtain rfl := (below i m hm).chunk_of_mem he
      have hiff := ih _ m hm
      rw [List.length_append, List.length_singleton] at hiff
      exact ⟨m, hm, hiff.2 ⟨e, he, rfl, hk⟩⟩

/-- An entry is found by its own key. -/
theorem Valid.find?_of_mem [EquivBEq K] (hn : Valid path n) {e : K × V} (he : e ∈ n.toList) :
    n.find? (hash e.1) e.1 path.length = some e.2 :=
  hn.find?_eq_some_iff.2 ⟨e, he, rfl, BEq.rfl, rfl⟩

/-! ### Updates as edits -/

/-- A new key is put in at one place, and no key with its hash comes after it. -/
theorem Valid.toList_insert_of_none (hn : Valid path n) (hlen : path.length ≤ levels) (key : K)
    (value : V) (hr : route (hash key) path.length = path)
    (hnone : n.find? (hash key) key path.length = none) :
    ∃ before after, n.toList = before ++ after ∧ (∀ e ∈ after, hash e.1 ≠ hash key) ∧
      (n.insert (hash key) key value path.length).1.toList = before ++ (key, value) :: after := by
  induction hn with
  | @leaf path h k v hash_eq on_route =>
    rw [Node.insert]
    split_ifs with hh hk
    · rw [find?_leaf, if_pos ⟨hh, hk⟩] at hnone
      cases hnone
    · exact ⟨[(k, v)], [], rfl, fun e he => absurd he List.not_mem_nil, rfl⟩
    · obtain ⟨before, after, hold, hnew⟩ := toList_join_leaf hh hlen on_route hr
      refine ⟨before, after, hold, fun e he => ?_, hnew⟩
      obtain rfl := List.mem_singleton.1 (hold ▸ List.mem_append_right before he)
      rwa [hash_eq]
  | @bucket path h entries several hash_eq distinct on_route =>
    rw [Node.insert]
    split_ifs with hh
    · rw [find?_bucket, if_pos hh, Bucket.find?_eq_none_iff] at hnone
      refine ⟨entries, [], (List.append_nil _).symm, fun e he => absurd he List.not_mem_nil, ?_⟩
      rw [toList, Bucket.insert_of_not_contains hnone]
    · obtain ⟨before, after, hold, hnew⟩ := toList_join_leaf hh hlen on_route hr
      refine ⟨before, after, hold, fun e he => ?_, hnew⟩
      have hmem : e ∈ (Node.bucket h entries).toList := hold ▸ List.mem_append_right before he
      rwa [hash_eq e.1 (List.mem_map_of_mem hmem)]
  | @branch path slots children shallow card_eq nonempty only below ih =>
    cases hc : child? slots children (chunk (hash key) path.length) with
    | none =>
      rw [(insert_branch_of_none key value card_eq hc).2]
      have hle : slots.rank (chunk (hash key) path.length) ≤ children.length :=
        card_eq ▸ slots.rank_le_card (chunk_lt (hash key) path.length)
      obtain ⟨before, after, hall, hinsert⟩ :=
        listToList_insertIdx hle (.leaf (hash key) key value)
      refine ⟨before, after, hall, fun e he hhash => ?_, ?_⟩
      · -- an entry with this hash would lie below the slot that is free
        have hmem : e ∈ (Node.branch slots children).toList := by
          rw [toList, hall]
          exact List.mem_append_right before he
        obtain ⟨i, m, hi, he⟩ := (mem_toList_branch card_eq).1 hmem
        rw [← hhash, (below i m hi).chunk_of_mem he, hi] at hc
        cases hc
      · rw [toList, hinsert, toList, List.append_assoc, List.singleton_append]
    | some m =>
      have hedit := ih _ m hc (by rw [List.length_append]; exact shallow)
        (by rw [List.length_append, List.length_singleton, route_succ, hr])
      rw [find?_branch, hc, Option.bind_some] at hnone
      rw [List.length_append, List.length_singleton] at hedit
      obtain ⟨before, after, hm, hafter, hinsert⟩ := hedit hnone
      obtain ⟨front, back, hall, hothers, hset, -⟩ := exists_split_child card_eq below hc
      refine ⟨front ++ before, after ++ back, ?_, fun e he => ?_, ?_⟩
      · rw [toList, hall, hm]
        simp only [List.append_assoc]
      · rcases List.mem_append.1 he with he | he
        · exact hafter e he
        · exact hothers e (List.mem_append_right front he)
      · rw [insert_branch_of_some hc, toList, hset, hinsert]
        simp only [List.append_assoc, List.cons_append]

/-- The entry of a key that is there takes the new value, and the new key as well if no other entry
has its hash. -/
theorem Valid.toList_insert_of_some (hn : Valid path n) (key : K) (value : V) {v : V}
    (hsome : n.find? (hash key) key path.length = some v) :
    ∃ before k after, SameKey k key ∧ n.toList = before ++ (k, v) :: after ∧
      (n.insert (hash key) key value path.length).1.toList = before ++
        (if ∃ e ∈ before ++ after, hash e.1 = hash key then k else key, value) :: after := by
  induction hn with
  | @leaf path h k v' hash_eq on_route =>
    rw [find?_leaf] at hsome
    split_ifs at hsome with hk
    obtain rfl := Option.some.inj hsome
    refine ⟨[], k, [], ⟨hash_eq.trans hk.1, hk.2⟩, rfl, ?_⟩
    rw [Node.insert, if_pos hk.1, if_pos hk.2]
    simp [toList]
  | @bucket path h entries several hash_eq distinct on_route =>
    rw [find?_bucket] at hsome
    split_ifs at hsome with hh
    obtain ⟨before, k, after, hk, hall, hinsert⟩ := Bucket.insert_of_find? value hsome
    have hhash : ∀ e ∈ entries, hash e.1 = hash key := fun e he =>
      (hash_eq e.1 (List.mem_map_of_mem he)).trans hh
    have hother : ∃ e ∈ before ++ after, hash e.1 = hash key := by
      obtain ⟨e, he⟩ : ∃ e, e ∈ before ++ after := by
        refine List.exists_mem_of_length_pos ?_
        rw [hall, List.length_append, List.length_cons] at several
        rw [List.length_append]
        omega
      have hmem : e ∈ entries := by
        simp only [hall, List.mem_append, List.mem_cons] at he ⊢
        tauto
      exact ⟨e, he, hhash e hmem⟩
    refine ⟨before, k, after, ⟨hhash (k, v) (by simp [hall]), hk⟩, hall, ?_⟩
    rw [Node.insert, if_pos hh, toList, hinsert, if_pos hother]
  | @branch path slots children shallow card_eq nonempty only below ih =>
    rw [find?_branch, Option.bind_eq_some_iff] at hsome
    obtain ⟨m, hc, hsome⟩ := hsome
    have hedit := ih _ m hc
    rw [List.length_append, List.length_singleton] at hedit
    obtain ⟨before, k, after, hk, hm, hinsert⟩ := hedit hsome
    obtain ⟨front, back, hall, hothers, hset, -⟩ := exists_split_child card_eq below hc
    -- entries below other children have other hashes
    have hiff : (∃ e ∈ front ++ before ++ (after ++ back), hash e.1 = hash key) ↔
        ∃ e ∈ before ++ after, hash e.1 = hash key := by
      constructor
      · rintro ⟨e, he, hhash⟩
        have hne : e ∉ front ++ back := fun hmem => hothers e hmem hhash
        simp only [List.mem_append] at he hne ⊢
        exact ⟨e, by tauto, hhash⟩
      · rintro ⟨e, he, hhash⟩
        simp only [List.mem_append] at he ⊢
        exact ⟨e, by tauto, hhash⟩
    refine ⟨front ++ before, k, after ++ back, hk, ?_, ?_⟩
    · rw [toList, hall, hm]
      simp only [List.append_assoc, List.cons_append]
    · rw [insert_branch_of_some hc, toList, hset, hinsert, if_congr hiff rfl rfl]
      simp only [List.append_assoc, List.cons_append]

/-- Erasing a key takes out one entry. -/
theorem Valid.toList_erase (hn : Valid path n) {h : UInt64} {key : K} {left : Option (Node K V)}
    (he : n.erase? h key path.length = some left) :
    ∃ before e after, hash e.1 = h ∧ (e.1 == key) = true ∧ n.toList = before ++ e :: after ∧
      listToList left.toList = before ++ after := by
  induction hn generalizing left with
  | @leaf path h' k v hash_eq on_route =>
    rw [erase?] at he
    split_ifs at he with hk
    obtain rfl := Option.some.inj he
    simp only [Bool.and_eq_true, decide_eq_true_eq] at hk
    exact ⟨[], (k, v), [], hash_eq.trans hk.1, hk.2, rfl, rfl⟩
  | @bucket path h' entries several hash_eq distinct on_route =>
    rw [erase?] at he
    split_ifs at he with hk
    obtain rfl := Option.some.inj he
    simp only [Bool.and_eq_true, decide_eq_true_eq] at hk
    obtain ⟨e, hmem, hek⟩ := List.any_eq_true.1 hk.2
    obtain ⟨e, before, after, -, hek, hall, herase⟩ :=
      List.exists_of_eraseP (p := fun e : K × V => e.1 == key) hmem hek
    have hmem : e ∈ entries := by simp [hall]
    refine ⟨before, e, after, (hash_eq e.1 (List.mem_map_of_mem hmem)).trans hk.1, hek, hall, ?_⟩
    rw [Option.toList_some, listToList, listToList, List.append_nil, toList_ofEntries]
    exact herase
  | @branch path slots children shallow card_eq nonempty only below ih =>
    cases hc : child? slots children (chunk h path.length) with
    | none =>
      rw [erase?_branch_of_none hc] at he
      cases he
    | some m =>
      obtain ⟨front, back, hall, -, hset, hdrop⟩ := listToList_split (getElem?_rank hc)
      rw [erase?_branch_of_some hc] at he
      split at he
      · cases he
      · next hm =>
        obtain ⟨before, e, after, hhash, hek, hmem, hleft⟩ :=
          ih _ m hc (by rwa [List.length_append])
        have hrest : listToList left.toList = front ++ back := by
          rw [← hdrop]
          split_ifs at he with hone
          · obtain rfl := Option.some.inj he
            have hlt := rank_lt_length hc
            obtain ⟨c, rfl⟩ := List.length_eq_one_iff.1 hone
            obtain hzero : slots.rank (chunk h path.length) = 0 := by simpa using hlt
            rw [hzero]
            rfl
          · obtain rfl := Option.some.inj he
            rw [Option.toList_some, listToList, listToList, List.append_nil, toList_collapse]
        refine ⟨front ++ before, e, after ++ back, hhash, hek, ?_, ?_⟩
        · rw [toList, hall, hmem]
          simp only [List.append_assoc, List.cons_append]
        · -- the child had no entry but this one
          obtain ⟨rfl, rfl⟩ := List.append_eq_nil_iff.1 hleft.symm
          rw [hrest, List.append_nil, List.nil_append]
      · next m' hm =>
        obtain ⟨before, e, after, hhash, hek, hmem, hleft⟩ :=
          ih _ m hc (by rwa [List.length_append])
        rw [Option.toList_some, listToList, listToList, List.append_nil] at hleft
        obtain rfl := Option.some.inj he
        refine ⟨front ++ before, e, after ++ back, hhash, hek, ?_, ?_⟩
        · rw [toList, hall, hmem]
          simp only [List.append_assoc, List.cons_append]
        · rw [Option.toList_some, listToList, listToList, List.append_nil, toList_collapse, hset,
            hleft]
          simp only [List.append_assoc]

end Node

/-! ### Maps -/

theorem toList_of_root {m : HashTrie K V} {n : Node K V} (h : m.root = some n) :
    m.toList = n.toList := by
  simp [toList, h, Node.listToList]

variable [BEq K] [Hashable K] {m m' : HashTrie K V}

theorem find?_of_root {n : Node K V} (h : m.root = some n) (k : K) :
    m.find? k = n.find? (hash k) k 0 := by
  rw [find?, h, Option.bind_some]

/-- Looking up a key finds the entry that is listed for it. -/
theorem find?_eq_some_iff [EquivBEq K] (hm : m.Valid) {k : K} {v : V} :
    m.find? k = some v ↔ ∃ e ∈ m.toList, SameKey e.1 k ∧ e.2 = v := by
  cases hroot : m.root with
  | none => simp [find?, toList, hroot, Node.listToList]
  | some n =>
    have hiff := (hm n hroot).find?_eq_some_iff (h := hash k) (k := k) (v := v)
    rw [List.length_nil] at hiff
    simp only [toList_of_root hroot, find?_of_root hroot, hiff, SameKey, and_assoc]

theorem toList_insert_of_none (hm : m.Valid) {key : K} (value : V) (hnone : m.find? key = none) :
    ∃ before after, m.toList = before ++ after ∧ (∀ e ∈ after, hash e.1 ≠ hash key) ∧
      (m.insert key value).toList = before ++ (key, value) :: after := by
  cases hroot : m.root with
  | none =>
    refine ⟨[], [], by simp [toList, hroot, Node.listToList], ?_, ?_⟩
    · exact fun e he => absurd he List.not_mem_nil
    · simp [insert, hroot, toList, Node.listToList, Node.toList]
  | some n =>
    rw [find?_of_root hroot] at hnone
    obtain ⟨before, after, hold, hafter, hnew⟩ :=
      (hm n hroot).toList_insert_of_none (Nat.zero_le _) key value rfl hnone
    refine ⟨before, after, (toList_of_root hroot).trans hold, hafter, ?_⟩
    rw [← hnew]
    exact toList_of_root (by rw [insert, hroot]; rfl)

theorem toList_insert_of_some (hm : m.Valid) {key : K} {v : V} (value : V)
    (hsome : m.find? key = some v) :
    ∃ before k after, SameKey k key ∧ m.toList = before ++ (k, v) :: after ∧
      (m.insert key value).toList = before ++
        (if ∃ e ∈ before ++ after, hash e.1 = hash key then k else key, value) :: after := by
  obtain ⟨n, hroot, hfind⟩ := Option.bind_eq_some_iff.1 hsome
  obtain ⟨before, k, after, hk, hold, hnew⟩ := (hm n hroot).toList_insert_of_some key value hfind
  refine ⟨before, k, after, hk, (toList_of_root hroot).trans hold, ?_⟩
  rw [← hnew]
  exact toList_of_root (by rw [insert, hroot]; rfl)

theorem toList_erase (hm : m.Valid) {key : K} (he : m.erase? key = some m') :
    ∃ before e after, SameKey e.1 key ∧ m.toList = before ++ e :: after ∧
      m'.toList = before ++ after := by
  obtain ⟨left, hleft, rfl⟩ := Option.map_eq_some_iff.1 he
  obtain ⟨n, hroot, herase⟩ := Option.bind_eq_some_iff.1 hleft
  obtain ⟨before, e, after, hhash, hkey, hold, hnew⟩ := (hm n hroot).toList_erase herase
  exact ⟨before, e, after, ⟨hhash, hkey⟩, (toList_of_root hroot).trans hold, hnew⟩

theorem length_toList_insert (hm : m.Valid) (key : K) (value : V) :
    (m.insert key value).toList.length =
      if (m.find? key).isNone then m.toList.length + 1 else m.toList.length := by
  cases hfind : m.find? key with
  | none =>
    obtain ⟨before, after, hold, -, hnew⟩ := toList_insert_of_none hm value hfind
    rw [hold, hnew]
    simp [Nat.add_assoc]
  | some v =>
    obtain ⟨before, k, after, -, hold, hnew⟩ := toList_insert_of_some hm value hfind
    rw [hold, hnew]
    simp

theorem length_toList_erase (hm : m.Valid) {key : K} (he : m.erase? key = some m') :
    m.toList.length = m'.toList.length + 1 := by
  obtain ⟨before, e, after, -, hold, hnew⟩ := toList_erase hm he
  rw [hold, hnew]
  simp [Nat.add_assoc]

theorem Valid.apply (hm : m.Valid) (u : Update K V) : (u.apply m).Valid := by
  cases u with
  | set key value => exact hm.insert key value
  | delete key =>
    rw [Update.apply]
    cases he : m.erase? key with
    | none => exact hm
    | some m' => exact hm.erase he

theorem replay_append_singleton (history : List (Update K V)) (u : Update K V) :
    replay (history ++ [u]) = u.apply (replay history) := by
  rw [replay, List.foldl_append]
  rfl

theorem valid_replay (history : List (Update K V)) : (replay history).Valid := by
  induction history using List.reverseRecOn with
  | nil => exact valid_empty
  | append_singleton history u ih =>
    rw [replay_append_singleton]
    exact ih.apply u

theorem size_apply (hm : m.Valid) (hsize : m.size = m.toList.length) (u : Update K V) :
    (u.apply m).size = (u.apply m).toList.length := by
  cases u with
  | set key value => rw [Update.apply, size_insert hm, length_toList_insert hm, hsize]
  | delete key =>
    rw [Update.apply]
    cases he : m.erase? key with
    | none => exact hsize
    | some m' =>
      have hlength := length_toList_erase hm he
      rw [Option.getD_some, size_erase he]
      omega

/-- **A map counts its entries**, after any history. -/
theorem size_replay (history : List (Update K V)) :
    (replay history).size = (replay history).toList.length := by
  induction history using List.reverseRecOn with
  | nil => rfl
  | append_singleton history u ih =>
    rw [replay_append_singleton]
    exact size_apply (valid_replay history) ih u

end HashTrie

end TraceOpt
