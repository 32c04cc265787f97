import TraceOpt.Proofs.HashTrie.Walk

/-!
# The contents of a trie give its shape

Two valid tries with the same contents have the same nodes, but for the order of the entries in
buckets and for which of several equal keys they hold; if they also list their entries in the same
order, they are the same.  So the shape of a trie does not depend on the history that led to it.

* `Node.Similar`: nodes that differ in the order of bucket entries and in equal keys only.
* `Node.Valid.similar`, `Node.Similar.find?_eq`: valid nodes are similar exactly if lookups agree.
* `Node.Similar.eq_of_toList_eq`: similar nodes with the same list of entries are the same.
* `erase?_insert`: erasing a key that was just put in gives back the trie there was.
* `replay_canonical`: tries after any two histories.
-/

namespace TraceOpt

namespace HashTrie

universe u v

variable {K : Type u} {V : Type v}

/-! ### Entries up to equality of keys -/

section Entries

variable [BEq K] [EquivBEq K] {entries : List (K × V)} {k : K} {v : V}

/-- An entry, with its key up to `==`. -/
def entryClass (e : K × V) : KeyClass K × V := (keyClass e.1, e.2)

theorem mem_map_entryClass :
    (keyClass k, v) ∈ entries.map entryClass ↔ ∃ e ∈ entries, (e.1 == k) = true ∧ e.2 = v := by
  simp only [List.mem_map, entryClass, Prod.mk.injEq, keyClass_eq_iff]

theorem nodup_map_entryClass
    (distinct : (entries.map (·.1)).Pairwise fun a b => (a == b) = false) :
    (entries.map entryClass).Nodup := by
  rw [List.pairwise_map] at distinct
  refine List.pairwise_map.2 (distinct.imp fun {a b} hne heq => ?_)
  rw [keyClass_eq_iff.1 (congrArg Prod.fst heq)] at hne
  cases hne

/-- Several different keys are not all equal to one key. -/
theorem Bucket.not_forall_beq (several : 2 ≤ entries.length)
    (distinct : (entries.map (·.1)).Pairwise fun a b => (a == b) = false) :
    ¬ ∀ e ∈ entries, (e.1 == k) = true := by
  intro hall
  match entries with
  | a :: b :: rest =>
    have hne := (List.pairwise_cons.1 distinct).1 b.1 List.mem_cons_self
    have ha := hall a List.mem_cons_self
    have hb := hall b (List.mem_cons_of_mem _ List.mem_cons_self)
    rw [BEq.trans ha (BEq.symm hb)] at hne
    cases hne

end Entries

theorem Bitmap.remove_add (b : Bitmap) {i : Nat} (hi : i < 32) (hb : b.has i = false) :
    (b.add i).remove i = b := by
  refine BitVec.eq_of_getLsbD_eq fun j _ => ?_
  change ((b.add i).remove i).has j = b.has j
  rw [has_remove, has_add b i j hi]
  by_cases hij : i = j
  · subst hij
    simp [hb]
  · simp [hij]

namespace Node

/-! ### Erasing what was just put in -/

section Erase

theorem collapse_eq_branch {slots : Bitmap} {children : List (Node K V)}
    (only : ∀ n, children = [n] → n.isBranch = true) :
    collapse slots children = branch slots children := by
  match children with
  | [] => rfl
  | [n] => rw [collapse, if_pos (only n rfl)]
  | _ :: _ :: _ => rfl

theorem collapse_of_not_isBranch {slots : Bitmap} {n : Node K V} (hb : n.isBranch = false) :
    collapse slots [n] = n := by
  rw [collapse, if_neg (Bool.not_eq_true _ ▸ hb)]

variable [BEq K] [ReflBEq K]

theorem erase?_leaf_self {h : UInt64} {key : K} {value : V} (d : Nat) :
    (leaf h key value).erase? h key d = some none := by
  simp [erase?]

/-- A leaf that was put into a free slot is taken out again. -/
theorem erase?_insertIdx {slots : Bitmap} {children : List (Node K V)} {h : UInt64}
    {key : K} {value : V} {d : Nat} (card_eq : slots.card = children.length)
    (nonempty : children ≠ []) (hno : slots.has (chunk h d) = false) :
    (branch (slots.add (chunk h d))
        (children.insertIdx (slots.rank (chunk h d)) (.leaf h key value))).erase? h key d =
      some (some (collapse slots children)) := by
  have hle : slots.rank (chunk h d) ≤ children.length :=
    card_eq ▸ slots.rank_le_card (chunk_lt h d)
  have hchild : child? (slots.add (chunk h d))
      (children.insertIdx (slots.rank (chunk h d)) (.leaf h key value)) (chunk h d) =
      some (.leaf h key value) := by
    rw [child?_insertIdx (chunk_lt h d) hno card_eq, if_pos rfl]
  have hone : (children.insertIdx (slots.rank (chunk h d)) (.leaf h key value)).length ≠ 1 := by
    have hpos := List.length_pos_of_ne_nil nonempty
    rw [List.length_insertIdx_of_le_length hle]
    omega
  have hrank : (slots.add (chunk h d)).rank (chunk h d) = slots.rank (chunk h d) := by
    rw [slots.rank_add (chunk_lt h d) hno, if_neg (Nat.lt_irrefl _), Nat.add_zero]
  rw [erase?_branch_of_some hchild, erase?_leaf_self]
  dsimp only
  rw [if_neg hone, hrank, List.eraseIdx_insertIdx_self, Bitmap.remove_add _ (chunk_lt h d) hno]

theorem erase?_join_go {a : Node K V} {aHash bHash : UInt64} {key : K} {value : V}
    (ha : a.isBranch = false) (hne : aHash ≠ bHash) (left d : Nat) (hlevels : d + left = levels)
    (hd : route aHash d = route bHash d) :
    (join.go a aHash (.leaf bHash key value) bHash left d).erase? bHash key d = some (some a) := by
  induction left generalizing d with
  | zero =>
    -- routes of different hashes differ at the last level at the latest
    obtain rfl : d = levels := hlevels
    exact absurd (eq_of_route_eq hd) hne
  | succ left ih =>
    by_cases hchunk : chunk aHash d = chunk bHash d
    · have herase := ih (d + 1) (by omega) (by rw [route_succ, route_succ, hd, hchunk])
      rw [join_go_of_eq hchunk, hchunk]
      rw [erase?_branch_of_some (by rw [child?_single (chunk_lt bHash d), if_pos rfl]), herase]
      dsimp only
      rw [Bitmap.rank_single (chunk_lt bHash d), if_neg (Nat.lt_irrefl _), List.set_cons_zero,
        collapse_of_not_isBranch ha]
    · obtain ⟨hno, heq⟩ := join_go_of_ne a (.leaf bHash key value) left hchunk
      rw [heq, erase?_insertIdx (Bitmap.card_single (chunk_lt _ _)) (List.cons_ne_nil _ _) hno,
        collapse_of_not_isBranch ha]

/-- **Erasing a key that was just put in gives back the node there was.** -/
theorem Valid.erase?_insert [Hashable K] {path : List Nat} {n : Node K V} (hn : Valid path n)
    (hlen : path.length ≤ levels) (key : K) (value : V) (hr : route (hash key) path.length = path)
    (hnone : n.find? (hash key) key path.length = none) :
    (n.insert (hash key) key value path.length).1.erase? (hash key) key path.length =
      some (some n) := by
  induction hn with
  | @leaf path h k v hash_eq on_route =>
    rw [Node.insert]
    split_ifs with hh hk
    · rw [find?_leaf, if_pos ⟨hh, hk⟩] at hnone
      cases hnone
    · simp [erase?, Bucket.contains, hk, hh, ofEntries]
    · exact erase?_join_go rfl hh _ _ (by omega) (on_route.trans hr.symm)
  | @bucket path h entries several hash_eq distinct on_route =>
    rw [Node.insert]
    split_ifs with hh
    · rw [find?_bucket, if_pos hh, Bucket.find?_eq_none_iff] at hnone
      have habsent : ∀ e ∈ entries, ¬ (e.1 == key) = true := List.any_eq_false.1 hnone
      have hself : Bucket.contains key (entries ++ [(key, value)]) = true := by
        simp [Bucket.contains]
      have herase : (entries ++ [(key, value)]).eraseP (·.1 == key) = entries := by
        rw [List.eraseP_append_right _ habsent]
        simp
      rw [Bucket.insert_of_not_contains hnone, erase?, hself, herase]
      simp only [hh, decide_true, Bool.and_self, if_true]
      obtain ⟨e, e', rest, rfl⟩ : ∃ e e' rest, entries = e :: e' :: rest := by
        rcases entries with _ | ⟨e, _ | ⟨e', rest⟩⟩
        · exact absurd several (by simp)
        · exact absurd several (by simp)
        · exact ⟨e, e', rest, rfl⟩
      rfl
    · exact erase?_join_go rfl hh _ _ (by omega) (on_route.trans hr.symm)
  | @branch path slots children shallow card_eq nonempty only below ih =>
    cases hc : child? slots children (chunk (hash key) path.length) with
    | none =>
      obtain ⟨hno, heq⟩ := insert_branch_of_none key value card_eq hc
      rw [heq, erase?_insertIdx card_eq nonempty hno, collapse_eq_branch only]
    | some m =>
      have herase := ih _ m hc (by rw [List.length_append]; exact shallow)
        (by rw [List.length_append, List.length_singleton, route_succ, hr])
      rw [List.length_append, List.length_singleton] at herase
      rw [find?_branch, hc, Option.bind_some] at hnone
      have hlt := rank_lt_length hc
      have hset := child?_set (has_of_child? hc) hlt
        (m.insert (hash key) key value (path.length + 1)).1 (chunk (hash key) path.length)
      rw [if_pos rfl] at hset
      obtain ⟨_, hget⟩ := List.getElem?_eq_some_iff.1 (getElem?_rank hc)
      rw [insert_branch_of_some hc, erase?_branch_of_some hset, herase hnone]
      dsimp only
      rw [List.set_set, ← hget, List.set_getElem_self, collapse_eq_branch only]

end Erase

/-! ### Similar nodes -/

theorem length_listToList_congr {children children' : List (Node K V)}
    (length_eq : children.length = children'.length)
    (below : ∀ (p : Nat) (n n' : Node K V), children[p]? = some n → children'[p]? = some n' →
      n.toList.length = n'.toList.length) :
    (listToList children).length = (listToList children').length := by
  induction children generalizing children' with
  | nil =>
    obtain rfl := List.eq_nil_of_length_eq_zero length_eq.symm
    rfl
  | cons n rest ih =>
    obtain ⟨n', rest', rfl⟩ := List.exists_cons_of_length_eq_add_one length_eq.symm
    have hrest := ih (Nat.succ.inj length_eq) fun p => below (p + 1)
    rw [listToList, listToList, List.length_append, List.length_append, below 0 n n' rfl rfl, hrest]

theorem eq_of_listToList_eq {children children' : List (Node K V)}
    (length_eq : children.length = children'.length)
    (below : ∀ (p : Nat) (n n' : Node K V), children[p]? = some n → children'[p]? = some n' →
      n.toList.length = n'.toList.length ∧ (n.toList = n'.toList → n = n'))
    (h : listToList children = listToList children') : children = children' := by
  induction children generalizing children' with
  | nil => exact (List.eq_nil_of_length_eq_zero length_eq.symm).symm
  | cons n rest ih =>
    obtain ⟨n', rest', rfl⟩ := List.exists_cons_of_length_eq_add_one length_eq.symm
    obtain ⟨hlength, heq⟩ := below 0 n n' rfl rfl
    obtain ⟨hfirst, hrest⟩ := List.append_inj h hlength
    rw [heq hfirst, ih (Nat.succ.inj length_eq) (fun p => below (p + 1)) hrest]

variable [BEq K]

/-- Nodes that differ at most in the order of the entries of buckets and in which of several equal
keys they hold. -/
inductive Similar [EquivBEq K] : Node K V → Node K V → Prop
  | leaf {h : UInt64} {k k' : K} {v : V} (key : (k == k') = true) :
      Similar (.leaf h k v) (.leaf h k' v)
  | bucket {h : UInt64} {entries entries' : List (K × V)}
      (perm : (entries.map entryClass).Perm (entries'.map entryClass)) :
      Similar (.bucket h entries) (.bucket h entries')
  | branch {slots : Bitmap} {children children' : List (Node K V)}
      (length_eq : children.length = children'.length)
      (below : ∀ (p : Nat) (n n' : Node K V),
        children[p]? = some n → children'[p]? = some n' → Similar n n') :
      Similar (.branch slots children) (.branch slots children')

/-! ### Similar nodes with the same entries -/

theorem Similar.length_toList_eq [EquivBEq K] {n n' : Node K V} (h : Similar n n') :
    n.toList.length = n'.toList.length := by
  induction h with
  | leaf => rfl
  | bucket perm => simpa [toList] using perm.length_eq
  | branch length_eq _ ih => exact length_listToList_congr length_eq ih

theorem Similar.eq_of_toList_eq [EquivBEq K] {n n' : Node K V} (h : Similar n n')
    (hlist : n.toList = n'.toList) : n = n' := by
  induction h with
  | leaf =>
    obtain ⟨rfl, -⟩ := Prod.mk.inj (List.singleton_inj.1 hlist)
    rfl
  | bucket =>
    obtain rfl := hlist
    rfl
  | branch length_eq below ih =>
    rw [eq_of_listToList_eq length_eq
      (fun p n n' hn hn' => ⟨(below p n n' hn hn').length_toList_eq, ih p n n' hn hn'⟩) hlist]

/-! ### Valid nodes with the same contents -/

variable [Hashable K] {path : List Nat} {n n' : Node K V}

theorem Valid.hash_eq_of_mem (hn : Valid path n) (hb : n.isBranch = false) {e e' : K × V}
    (he : e ∈ n.toList) (he' : e' ∈ n.toList) : hash e.1 = hash e'.1 := by
  cases hn with
  | leaf => rw [List.mem_singleton.1 he, List.mem_singleton.1 he']
  | bucket several hash_eq distinct on_route =>
    rw [hash_eq e.1 (List.mem_map_of_mem he), hash_eq e'.1 (List.mem_map_of_mem he')]
  | branch => cases hb

/-- A branch holds entries with different hashes. -/
theorem Valid.exists_hash_ne (hn : Valid path n) (hb : n.isBranch = true) :
    ∃ e ∈ n.toList, ∃ e' ∈ n.toList, hash e.1 ≠ hash e'.1 := by
  induction hn with
  | leaf => cases hb
  | bucket => cases hb
  | @branch path slots children shallow card_eq nonempty only below ih =>
    have hslot {p : Nat} {m : Node K V} (hp : children[p]? = some m) :
        ∃ i, slots.rank i = p ∧ child? slots children i = some m := exists_slot card_eq hp
    match children with
    | [] => exact absurd rfl nonempty
    | [m] =>
      obtain ⟨i, -, hi⟩ := hslot (p := 0) rfl
      obtain ⟨e, he, e', he', hne⟩ := ih i m hi (only m rfl)
      exact ⟨e, (mem_toList_branch card_eq).2 ⟨i, m, hi, he⟩, e',
        (mem_toList_branch card_eq).2 ⟨i, m, hi, he'⟩, hne⟩
    | m :: m' :: rest =>
      -- entries below two children differ in the chunk that tells the children apart
      obtain ⟨i, hri, hi⟩ := hslot (p := 0) rfl
      obtain ⟨j, hrj, hj⟩ := hslot (p := 1) rfl
      obtain ⟨e, he⟩ := List.exists_mem_of_ne_nil _ (below i m hi).toList_ne_nil
      obtain ⟨e', he'⟩ := List.exists_mem_of_ne_nil _ (below j m' hj).toList_ne_nil
      refine ⟨e, (mem_toList_branch card_eq).2 ⟨i, m, hi, he⟩, e',
        (mem_toList_branch card_eq).2 ⟨j, m', hj, he'⟩, fun heq => ?_⟩
      have hij : i = j := by
        rw [← (below i m hi).chunk_of_mem he, ← (below j m' hj).chunk_of_mem he', heq]
      rw [hij, hrj] at hri
      cases hri

section Same

variable [EquivBEq K] (hn : Valid path n) (hn' : Valid path n')
  (hsame : ∀ k, n.find? (hash k) k path.length = n'.find? (hash k) k path.length)

include hn hn' hsame

/-- What one node lists, the other lists too. -/
theorem exists_mem_of_same {e : K × V} (he : e ∈ n.toList) :
    ∃ e' ∈ n'.toList, hash e'.1 = hash e.1 ∧ (e'.1 == e.1) = true ∧ e'.2 = e.2 := by
  have hfind := hn.find?_of_mem he
  rw [hsame] at hfind
  exact hn'.find?_eq_some_iff.1 hfind

theorem isBranch_of_same (hb : n.isBranch = true) : n'.isBranch = true := by
  by_contra hb'
  obtain ⟨e, he, f, hf, hne⟩ := hn.exists_hash_ne hb
  obtain ⟨e', he', hhe, -⟩ := exists_mem_of_same hn hn' hsame he
  obtain ⟨f', hf', hhf, -⟩ := exists_mem_of_same hn hn' hsame hf
  rw [← hhe, ← hhf] at hne
  exact hne (hn'.hash_eq_of_mem (Bool.not_eq_true _ ▸ hb') he' hf')

end Same

/-- What a child finds is what its branch finds in the child's slot. -/
theorem Valid.find?_child [EquivBEq K] {slots : Bitmap} {children : List (Node K V)} {i : Nat}
    (hm : Valid (path ++ [i]) n) (hi : child? slots children i = some n) (k : K) :
    n.find? (hash k) k (path ++ [i]).length =
      if chunk (hash k) path.length = i
      then (Node.branch slots children).find? (hash k) k path.length else none := by
  split_ifs with hc
  · rw [find?_branch, hc, hi, Option.bind_some, List.length_append, List.length_singleton]
  · refine Option.eq_none_iff_forall_ne_some.2 fun v hv => ?_
    obtain ⟨e, he, heq, -⟩ := hm.find?_eq_some_iff.1 hv
    exact hc (heq ▸ hm.chunk_of_mem he)

/-- Branches with the same contents have the same slots. -/
theorem has_of_same [EquivBEq K] {slots slots' : Bitmap} {children children' : List (Node K V)}
    (card_eq : slots.card = children.length) (card_eq' : slots'.card = children'.length)
    (hn : Valid path (branch slots children)) (hn' : Valid path (branch slots' children'))
    (hsame : ∀ k, (branch slots children).find? (hash k) k path.length =
      (branch slots' children').find? (hash k) k path.length) {i : Nat} (hi : slots.has i = true) :
    slots'.has i = true := by
  obtain ⟨m, hm⟩ := exists_child? card_eq hi
  have hbelow {slots : Bitmap} {children : List (Node K V)}
      (hn : Valid path (branch slots children)) {j : Nat} {m : Node K V}
      (hj : child? slots children j = some m) : Valid (path ++ [j]) m := by
    cases hn with
    | branch _ _ _ _ below => exact below j m hj
  obtain ⟨e, he⟩ := List.exists_mem_of_ne_nil _ (hbelow hn hm).toList_ne_nil
  obtain ⟨e', he', hhash, -⟩ :=
    exists_mem_of_same hn hn' hsame ((mem_toList_branch card_eq).2 ⟨i, m, hm, he⟩)
  obtain ⟨j, m', hm', he'⟩ := (mem_toList_branch card_eq').1 he'
  have hij : j = i := by
    rw [← (hbelow hn hm).chunk_of_mem he, ← (hbelow hn' hm').chunk_of_mem he', hhash]
  exact hij ▸ has_of_child? hm'

/-- **Valid nodes with the same contents are similar.** -/
theorem Valid.similar [EquivBEq K] (hn : Valid path n) (hn' : Valid path n')
    (hsame : ∀ k, n.find? (hash k) k path.length = n'.find? (hash k) k path.length) :
    Similar n n' := by
  have hback : ∀ k, n'.find? (hash k) k path.length = n.find? (hash k) k path.length :=
    fun k => (hsame k).symm
  induction hn generalizing n' with
  | @leaf path h key value hash_eq on_route =>
    have hleaf : Valid path (.leaf h key value) := .leaf hash_eq on_route
    cases hn' with
    | @leaf _ h' key' value' hash_eq' on_route' =>
      obtain ⟨e, he, hh, hk, hv⟩ := exists_mem_of_same hleaf (.leaf hash_eq' on_route') hsame
        List.mem_cons_self
      obtain rfl := List.mem_singleton.1 he
      obtain rfl : value' = value := hv
      obtain rfl : h' = h := by rw [← hash_eq, ← hash_eq', hh]
      exact .leaf (BEq.symm hk)
    | bucket several hash_eq' distinct on_route' =>
      refine absurd (fun e he => ?_) (Bucket.not_forall_beq several distinct (k := key))
      obtain ⟨e', he', -, hk, -⟩ := exists_mem_of_same
        (.bucket several hash_eq' distinct on_route') hleaf hback he
      obtain rfl := List.mem_singleton.1 he'
      exact BEq.symm hk
    | branch shallow card_eq nonempty only below =>
      cases isBranch_of_same (.branch shallow card_eq nonempty only below) hleaf hback rfl
  | @bucket path h entries several hash_eq distinct on_route =>
    have hbucket : Valid path (.bucket h entries) := .bucket several hash_eq distinct on_route
    cases hn' with
    | @leaf _ h' key' value' hash_eq' on_route' =>
      refine absurd (fun e he => ?_) (Bucket.not_forall_beq several distinct (k := key'))
      obtain ⟨e', he', -, hk, -⟩ := exists_mem_of_same hbucket (.leaf hash_eq' on_route') hsame he
      obtain rfl := List.mem_singleton.1 he'
      exact BEq.symm hk
    | @bucket _ h' entries' several' hash_eq' distinct' on_route' =>
      have hbucket' : Valid path (.bucket h' entries') :=
        .bucket several' hash_eq' distinct' on_route'
      obtain rfl : h' = h := by
        obtain ⟨e, he⟩ := List.exists_mem_of_ne_nil _ hbucket.toList_ne_nil
        obtain ⟨e', he', hh, -⟩ := exists_mem_of_same hbucket hbucket' hsame he
        rw [← hash_eq e.1 (List.mem_map_of_mem he), ← hash_eq' e'.1 (List.mem_map_of_mem he'), hh]
      refine .bucket ((List.perm_ext_iff_of_nodup (nodup_map_entryClass distinct)
        (nodup_map_entryClass distinct')).2 fun c => ?_)
      constructor
      · intro hc
        obtain ⟨e, he, rfl⟩ := List.mem_map.1 hc
        obtain ⟨e', he', -, hk⟩ := exists_mem_of_same hbucket hbucket' hsame he
        exact mem_map_entryClass.2 ⟨e', he', hk⟩
      · intro hc
        obtain ⟨e, he, rfl⟩ := List.mem_map.1 hc
        obtain ⟨e', he', -, hk⟩ := exists_mem_of_same hbucket' hbucket hback he
        exact mem_map_entryClass.2 ⟨e', he', hk⟩
    | branch shallow card_eq nonempty only below =>
      cases isBranch_of_same (.branch shallow card_eq nonempty only below) hbucket hback rfl
  | @branch path slots children shallow card_eq nonempty only below ih =>
    have hbranch : Valid path (.branch slots children) :=
      .branch shallow card_eq nonempty only below
    have hb' := isBranch_of_same hbranch hn' hsame rfl
    have hn'' := hn'
    cases hn' with
    | leaf => cases hb'
    | bucket => cases hb'
    | @branch _ slots' children' shallow' card_eq' nonempty' only' below' =>
      obtain rfl : slots = slots' := by
        refine BitVec.eq_of_getLsbD_eq fun i _ => Bool.eq_iff_iff.2 ⟨?_, ?_⟩
        · exact has_of_same card_eq card_eq' hbranch hn'' hsame
        · exact has_of_same card_eq' card_eq hn'' hbranch hback
      refine .branch (card_eq.symm.trans card_eq') fun p m m' hm hm' => ?_
      obtain ⟨i, rfl, hi⟩ := exists_slot card_eq hm
      have hi' : child? slots children' i = some m' := by
        rw [child?, if_pos (has_of_child? hi), hm']
      have hchild (k : K) : m.find? (hash k) k (path ++ [i]).length =
          m'.find? (hash k) k (path ++ [i]).length := by
        rw [(below i m hi).find?_child hi, (below' i m' hi').find?_child hi', hsame]
      exact ih i m hi (below' i m' hi') hchild fun k => (hchild k).symm

/-- Similar valid nodes have the same contents. -/
theorem Similar.find?_eq [EquivBEq K] (h : Similar n n') (hn : Valid path n) (hn' : Valid path n')
    {hash : UInt64} (k : K) : n.find? hash k path.length = n'.find? hash k path.length := by
  induction h generalizing path with
  | @leaf h key key' value hk =>
    have hiff : (key == k) = true ↔ (key' == k) = true :=
      ⟨fun hkey => BEq.trans (BEq.symm hk) hkey, fun hkey => BEq.trans hk hkey⟩
    rw [find?_leaf, find?_leaf]
    exact if_congr (and_congr_right' hiff) rfl rfl
  | @bucket h entries entries' perm =>
    cases hn with
    | bucket _ _ distinct _ =>
      cases hn' with
      | bucket _ _ distinct' _ =>
        have hentries : Bucket.find? k entries = Bucket.find? k entries' := by
          refine Option.ext fun v => ?_
          rw [Bucket.find?_eq_some_iff distinct, Bucket.find?_eq_some_iff distinct',
            ← mem_map_entryClass, ← mem_map_entryClass, perm.mem_iff]
        rw [find?_bucket, find?_bucket, hentries]
  | @branch slots children children' length_eq below ih =>
    cases hn with
    | branch _ _ _ _ below =>
      cases hn' with
      | branch _ _ _ _ below' =>
        rw [find?_branch, find?_branch]
        cases hi : child? slots children (chunk hash path.length) with
        | none =>
          have hi' : child? slots children' (chunk hash path.length) = none := by
            rw [child?] at hi ⊢
            split_ifs at hi ⊢
            · rw [List.getElem?_eq_none_iff] at hi ⊢
              omega
            · rfl
          rw [hi']
        | some m =>
          have hlt := rank_lt_length hi
          obtain ⟨m', hm'⟩ : ∃ m', children'[slots.rank (chunk hash path.length)]? = some m' :=
            ⟨_, List.getElem?_eq_getElem (length_eq ▸ hlt)⟩
          have hi' : child? slots children' (chunk hash path.length) = some m' := by
            rw [child?, if_pos (has_of_child? hi), hm']
          have hfind := ih _ _ _ (getElem?_rank hi) hm' (below _ _ hi) (below' _ _ hi')
          rw [List.length_append, List.length_singleton] at hfind
          rw [hi', Option.bind_some, Option.bind_some, hfind]

end Node

/-! ### Maps -/

section Maps

variable [BEq K] [Hashable K] {m m' : HashTrie K V}

/-- Erasing a key that was just put in gives back the map there was. -/
theorem erase?_insert [ReflBEq K] (hm : m.Valid) {key : K} (value : V)
    (hnone : m.find? key = none) : (m.insert key value).erase? key = some m := by
  obtain ⟨root, size⟩ := m
  cases root with
  | none => simp [insert, erase?, Node.erase?]
  | some n =>
    have hvalid : n.Valid [] := hm n rfl
    have hsnd := hvalid.insert_snd key value
    have herase := hvalid.erase?_insert (Nat.zero_le _) key value rfl hnone
    have hfind : n.find? (hash key) key 0 = none := hnone
    rw [List.length_nil] at hsnd herase
    simp only [insert, erase?, Option.bind_some, herase, hsnd, hfind]
    rfl

theorem similar_iff [EquivBEq K] (hm : m.Valid) (hm' : m'.Valid) :
    Option.Rel Node.Similar m.root m'.root ↔ ∀ k, m.find? k = m'.find? k := by
  obtain ⟨root, size⟩ := m
  obtain ⟨root', size'⟩ := m'
  constructor
  · rintro (@⟨n, n', h⟩ | _) k
    · exact h.find?_eq (hm n rfl) (hm' n' rfl) k
    · rfl
  · intro hsame
    -- a node finds its first entry, where no node finds none
    have hfound {n : Node K V} (hn : n.Valid []) : ∃ k, n.find? (hash k) k 0 ≠ none := by
      obtain ⟨e, he⟩ := List.exists_mem_of_ne_nil _ hn.toList_ne_nil
      exact ⟨e.1, fun hnone => nomatch (hn.find?_of_mem he).symm.trans hnone⟩
    cases root with
    | none =>
      cases root' with
      | none => exact .none
      | some n' =>
        obtain ⟨k, hk⟩ := hfound (hm' n' rfl)
        exact absurd (hsame k).symm hk
    | some n =>
      cases root' with
      | none =>
        obtain ⟨k, hk⟩ := hfound (hm n rfl)
        exact absurd (hsame k) hk
      | some n' => exact .some ((hm n rfl).similar (hm' n' rfl) hsame)

/-- Maps that list the same entries have the same contents. -/
theorem find?_eq_of_toList_eq [EquivBEq K] (hm : m.Valid) (hm' : m'.Valid)
    (hlist : m.toList = m'.toList) (k : K) : m.find? k = m'.find? k := by
  refine Option.ext fun v => ?_
  rw [find?_eq_some_iff hm, find?_eq_some_iff hm', hlist]

theorem eq_of_toList_eq [EquivBEq K] (hm : m.Valid) (hm' : m'.Valid)
    (hsize : m.size = m.toList.length) (hsize' : m'.size = m'.toList.length)
    (hlist : m.toList = m'.toList) : m = m' := by
  have hsimilar := (similar_iff hm hm').2 (find?_eq_of_toList_eq hm hm' hlist)
  have hroot : m.root = m'.root := by
    rw [toList, toList] at hlist
    generalize m.root = root at hsimilar hlist
    generalize m'.root = root' at hsimilar hlist
    cases hsimilar with
    | none => rfl
    | some h =>
      simp only [Option.toList_some, Node.listToList, List.append_nil] at hlist
      rw [h.eq_of_toList_eq hlist]
  obtain ⟨root, size⟩ := m
  obtain rfl : root = m'.root := hroot
  obtain rfl : size = m'.size := by
    rw [hsize', ← hlist]
    exact hsize
  rfl

end Maps

/-- **The shape of a trie does not depend on its history.**  Whatever the hash function, tries that
list the same entries are the same; tries are similar exactly if they have the same contents; and
putting in a key that was absent and deleting it gives back the trie there was. -/
theorem replay_canonical [BEq K] [Hashable K] [EquivBEq K] (history history' : List (Update K V)) :
    ((replay history).cursor.drain.1 = (replay history').cursor.drain.1 →
      replay history = replay history') ∧
    (Option.Rel Node.Similar (replay history).root (replay history').root ↔
      ∀ k, (replay history).find? k = (replay history').find? k) ∧
    ∀ k v, (replay history).find? k = none →
      ((replay history).insert k v).erase? k = some (replay history) := by
  have hvalid := valid_replay history
  have hvalid' := valid_replay history'
  have hsize := size_replay history
  have hsize' := size_replay history'
  refine ⟨fun hdrain => ?_, similar_iff hvalid hvalid', fun k v => erase?_insert hvalid v⟩
  rw [drain_cursor hsize, drain_cursor hsize'] at hdrain
  exact eq_of_toList_eq hvalid hvalid' hsize hsize' hdrain

/-- The first updates of `labelledHistory` in another order and with other labels, and a key that
comes and goes. -/
def shuffledHistory : List (Update Labelled Nat) :=
  [.set ⟨3, 9⟩ 30, .set ⟨2, 0⟩ 20, .set ⟨4, 0⟩ 40, .set ⟨1, 0⟩ 10, .delete ⟨4, 0⟩]

/-- Both histories leave a bucket and a leaf under a fork, with the entries of the bucket in
different orders and different labels in the leaf. -/
theorem canonical_shuffledHistory :
    (replay (labelledHistory.take 3)).toList = [(⟨1, 0⟩, 10), (⟨2, 0⟩, 20), (⟨3, 0⟩, 30)] ∧
    (replay shuffledHistory).toList = [(⟨2, 0⟩, 20), (⟨1, 0⟩, 10), (⟨3, 9⟩, 30)] ∧
    (∀ k, (replay (labelledHistory.take 3)).find? k = (replay shuffledHistory).find? k) ∧
    ((replay shuffledHistory).insert ⟨4, 0⟩ 40).erase? ⟨4, 0⟩ = some (replay shuffledHistory) ∧
    replay (shuffledHistory ++ [.set ⟨0, 0⟩ 0, .delete ⟨0, 0⟩]) = replay shuffledHistory := by
  obtain ⟨-, hsimilar, -⟩ := replay_canonical (labelledHistory.take 3) shuffledHistory
  obtain ⟨heq, -, -⟩ :=
    replay_canonical (shuffledHistory ++ [.set ⟨0, 0⟩ 0, .delete ⟨0, 0⟩]) shuffledHistory
  obtain ⟨-, -, herase⟩ := replay_canonical shuffledHistory shuffledHistory
  refine ⟨rfl, rfl, hsimilar.1 (.some (.branch rfl ?_)), herase _ _ rfl, heq ?_⟩
  · -- below the root there is one fork in either trie, and below the fork two children
    rintro (_ | p) n n' hn hn'
    · cases hn
      cases hn'
      refine .branch rfl ?_
      rintro (_ | _ | p) n n' hn hn'
      · cases hn
        cases hn'
        exact .bucket (.swap _ _ _)
      · cases hn
        cases hn'
        exact .leaf rfl
      · cases hn
    · cases hn
  · rw [drain_cursor (size_replay _), drain_cursor (size_replay _)]
    rfl

end HashTrie

end TraceOpt
