import TraceOpt.Proofs.HashTrie.Walk

/-!
# The order of the entries of a trie

Children stand in the order of their slots and a hash picks one slot after another, so that a trie
lists its entries by the routes of their hashes.  Entries with the same hash stand together in one
bucket, and a new one goes last.  An update is thus an edit of the list of entries at a place that
the hash of its key tells.

* `RouteLT`: hashes in the order of their routes.
* `Node.Valid.pairwise_precedes`: the entries below a node are in order.
* `filter_sameKey`: a map lists the keys that it finds, each once.
* `replay_update_items`: what one update does to the items of a map.
-/

namespace TraceOpt

namespace HashTrie

universe u v

variable {K : Type u} {V : Type v}

/-! ### Routes in order -/

/-- The order of hashes in a trie: their routes are compared chunk by chunk, low bits first. -/
def RouteLT (a b : UInt64) : Prop := List.Lex (· < ·) (route a levels) (route b levels)

theorem RouteLT.irrefl (a : UInt64) : ¬ RouteLT a a := List.lt_irrefl (route a levels)

theorem route_add (hash : UInt64) (d n : Nat) :
    route hash (d + n) = route hash d ++ (List.range n).map fun i => chunk hash (d + i) := by
  simp [route, List.range_add, Function.comp_def]

/-- The first chunk in which two hashes differ tells their order. -/
theorem routeLT_of_chunk_lt {a b : UInt64} {d : Nat} (hd : d < levels)
    (hroute : route a d = route b d) (hchunk : chunk a d < chunk b d) : RouteLT a b := by
  obtain ⟨n, hn⟩ : ∃ n, levels = d + 1 + n := ⟨levels - (d + 1), by omega⟩
  have hsplit (h : UInt64) : route h levels =
      route h d ++ chunk h d :: (List.range n).map fun i => chunk h (d + 1 + i) := by
    rw [hn, route_add, route_succ, List.append_assoc, List.singleton_append]
  rw [RouteLT, hsplit a, hsplit b, hroute]
  exact List.Lex.append_left _ (List.Lex.rel hchunk) _

/-! ### Entries in order -/

section Precedes

variable [BEq K] [Hashable K]

/-- An entry may stand before another one: its hash comes first, or their hashes are the same and
their keys are different. -/
def Precedes (a b : K × V) : Prop :=
  RouteLT (hash a.1) (hash b.1) ∨ hash a.1 = hash b.1 ∧ (a.1 == b.1) = false

theorem Precedes.routeLT {a b : K × V} (h : Precedes a b) (hne : hash a.1 ≠ hash b.1) :
    RouteLT (hash a.1) (hash b.1) := h.resolve_right fun hsame => hne hsame.1

theorem Precedes.not_sameKey {a b : K × V} (h : Precedes a b) : ¬ SameKey a.1 b.1 := by
  rintro ⟨hhash, hkey⟩
  rcases h with hlt | ⟨-, hne⟩
  · rw [hhash] at hlt
    exact RouteLT.irrefl _ hlt
  · rw [hkey] at hne
    cases hne

namespace Node

/-- The entries below a child come before those below a child in a later place. -/
theorem precedes_of_children {path : List Nat} {slots : Bitmap} {children : List (Node K V)}
    (shallow : path.length < levels) (card_eq : slots.card = children.length)
    (below : ∀ i n, child? slots children i = some n → Valid (path ++ [i]) n) {p q : Nat}
    {n n' : Node K V} (hp : children[p]? = some n) (hq : children[q]? = some n') (hpq : p < q)
    {a b : K × V} (ha : a ∈ n.toList) (hb : b ∈ n'.toList) : Precedes a b := by
  obtain ⟨i, rfl, hi⟩ := exists_slot card_eq hp
  obtain ⟨j, rfl, hj⟩ := exists_slot card_eq hq
  have hij : i < j := by
    by_contra hle
    have hrank := slots.rank_mono (Nat.le_of_not_lt hle)
    omega
  have hroute {k : Nat} {m : Node K V} (hk : child? slots children k = some m) {e : K × V}
      (he : e ∈ m.toList) : route (hash e.1) path.length = path := by
    have hbelow := (below k m hk).route_of_mem he
    rw [List.length_append, List.length_singleton, route_succ] at hbelow
    exact (List.append_inj' hbelow rfl).1
  refine Or.inl (routeLT_of_chunk_lt shallow ((hroute hi ha).trans (hroute hj hb).symm) ?_)
  rwa [(below i n hi).chunk_of_mem ha, (below j n' hj).chunk_of_mem hb]

/-- **The entries below a valid node are in order.** -/
theorem Valid.pairwise_precedes {path : List Nat} {n : Node K V} (hn : Valid path n) :
    n.toList.Pairwise Precedes := by
  induction hn with
  | leaf => exact List.pairwise_singleton _ _
  | @bucket path h entries several hash_eq distinct on_route =>
    rw [List.pairwise_map] at distinct
    refine distinct.imp_of_mem fun {a b} ha hb hne => Or.inr ⟨?_, hne⟩
    rw [hash_eq a.1 (List.mem_map_of_mem ha), hash_eq b.1 (List.mem_map_of_mem hb)]
  | @branch path slots children shallow card_eq nonempty only below ih =>
    rw [toList, listToList_eq_flatMap, List.pairwise_flatMap]
    constructor
    · intro n hn
      obtain ⟨p, hp⟩ := List.mem_iff_getElem?.1 hn
      obtain ⟨i, -, hi⟩ := exists_slot card_eq hp
      exact ih i n hi
    · rw [List.pairwise_iff_getElem]
      intro p q hp hq hpq a ha b hb
      exact precedes_of_children shallow card_eq below (List.getElem?_eq_getElem hp)
        (List.getElem?_eq_getElem hq) hpq ha hb

end Node

theorem Valid.pairwise_precedes {m : HashTrie K V} (hm : m.Valid) :
    m.toList.Pairwise Precedes := by
  cases hroot : m.root with
  | none => simp [toList, hroot, Node.listToList]
  | some n =>
    rw [toList_of_root hroot]
    exact (hm n hroot).pairwise_precedes

/-- A new key goes after all entries whose hashes do not come after its own. -/
theorem toList_insert_ordered {m : HashTrie K V} (hm : m.Valid) {key : K} (value : V)
    (hnone : m.find? key = none) :
    ∃ before after, m.toList = before ++ after ∧
      (∀ e ∈ before, RouteLT (hash e.1) (hash key) ∨ hash e.1 = hash key) ∧
      (∀ e ∈ after, RouteLT (hash key) (hash e.1)) ∧
      (m.insert key value).toList = before ++ (key, value) :: after := by
  obtain ⟨before, after, hold, hafter, hnew⟩ := toList_insert_of_none hm value hnone
  have hordered := (hm.insert key value).pairwise_precedes
  rw [hnew] at hordered
  obtain ⟨-, hright, hleft⟩ := List.pairwise_append.1 hordered
  refine ⟨before, after, hold, fun e he => ?_, fun e he => ?_, hnew⟩
  · exact (hleft e he _ List.mem_cons_self).imp_right And.left
  · exact ((List.pairwise_cons.1 hright).1 e he).routeLT (hafter e he).symm

/-! ### The entry of a key -/

variable [EquivBEq K]

theorem SameKey.refl (k : K) : SameKey k k := ⟨rfl, BEq.rfl⟩

theorem SameKey.symm {a b : K} (h : SameKey a b) : SameKey b a := ⟨h.1.symm, BEq.symm h.2⟩

theorem SameKey.trans {a b c : K} (h : SameKey a b) (h' : SameKey b c) : SameKey a c :=
  ⟨h.1.trans h'.1, BEq.trans h.2 h'.2⟩

theorem sameKey_congr {a b : K} (h : SameKey a b) (c : K) : SameKey c a ↔ SameKey c b :=
  ⟨fun hc => hc.trans h, fun hc => hc.trans h.symm⟩

variable {before after : List (K × V)} {e : K × V} {k : K}

/-- A key has one entry at most. -/
theorem not_sameKey_of_split (hordered : (before ++ e :: after).Pairwise Precedes)
    (he : SameKey e.1 k) : ∀ e' ∈ before ++ after, ¬ SameKey e'.1 k := by
  obtain ⟨-, hafter, hbefore⟩ := List.pairwise_append.1 hordered
  intro e' he' hsame
  rcases List.mem_append.1 he' with he' | he'
  · exact (hbefore e' he' e List.mem_cons_self).not_sameKey (hsame.trans he.symm)
  · exact ((List.pairwise_cons.1 hafter).1 e' he').not_sameKey (he.trans hsame.symm)

theorem filter_not_sameKey (hordered : (before ++ e :: after).Pairwise Precedes)
    (he : SameKey e.1 k) :
    (before ++ e :: after).filter (fun e' => ¬ SameKey e'.1 k) = before ++ after := by
  have hothers := not_sameKey_of_split hordered he
  rw [List.filter_append, List.filter_cons_of_neg (by simpa using he), ← List.filter_append]
  exact List.filter_eq_self.2 (by simpa using hothers)

/-- **A map lists the keys that it finds**, each once and with its value. -/
theorem filter_sameKey {m : HashTrie K V} (hm : m.Valid) (k : K) :
    (m.toList.filter fun e => SameKey e.1 k).map (·.2) = (m.find? k).toList := by
  cases hfind : m.find? k with
  | none =>
    have hnone : ∀ e ∈ m.toList, ¬ SameKey e.1 k := by
      intro e he hsame
      rw [(find?_eq_some_iff hm).2 ⟨e, he, hsame, rfl⟩] at hfind
      cases hfind
    rw [List.filter_eq_nil_iff.2 (by simpa using hnone)]
    rfl
  | some v =>
    obtain ⟨e, he, hsame, rfl⟩ := (find?_eq_some_iff hm).1 hfind
    obtain ⟨before, after, hsplit⟩ := List.append_of_mem he
    have hordered := hm.pairwise_precedes
    rw [hsplit] at hordered ⊢
    have hothers := not_sameKey_of_split hordered hsame
    rw [List.forall_mem_append] at hothers
    rw [List.filter_append, List.filter_cons_of_pos (by simpa using hsame),
      List.filter_eq_nil_iff.2 (by simpa using hothers.1),
      List.filter_eq_nil_iff.2 (by simpa using hothers.2)]
    rfl

/-! ### One update -/

/-- Erasing a key takes out its entry and keeps all others, as they are and in order. -/
theorem toList_erase_eq_filter {m m' : HashTrie K V} (hm : m.Valid)
    (he : m.erase? k = some m') : m'.toList = m.toList.filter fun e => ¬ SameKey e.1 k := by
  obtain ⟨before, e, after, hsame, hold, hnew⟩ := toList_erase hm he
  have hordered := hm.pairwise_precedes
  rw [hold] at hordered ⊢
  rw [hnew, filter_not_sameKey hordered hsame]

/-- **What one update does to the items of a map.**  After any history, and whatever the hash
function:

* An absent key is not deleted; set to a value, it goes right after all items whose hashes are not
  after its own, and these are followed by hashes that are after its own.
* A key that is there has one item.  Deleting the key takes out this item and keeps all others, as
  they are and in order.  Setting the key replaces the value in place; the item takes the new key if
  no other item has its hash, and keeps the one that it had otherwise. -/
theorem replay_update_items (history : List (Update K V)) (k : K) (v : V) :
    ((replay history).find? k = none →
      (replay history).erase? k = none ∧
      ∃ before after, (replay history).items = before ++ after ∧
        (∀ e ∈ before, RouteLT (hash e.1) (hash k) ∨ hash e.1 = hash k) ∧
        (∀ e ∈ after, RouteLT (hash k) (hash e.1)) ∧
        ((replay history).insert k v).items = before ++ (k, v) :: after) ∧
    ∀ old, (replay history).find? k = some old →
      ∃ before k' after, (replay history).items = before ++ (k', old) :: after ∧
        SameKey k' k ∧ (∀ e ∈ before ++ after, ¬ SameKey e.1 k) ∧
        (∃ m, (replay history).erase? k = some m ∧ m.items = before ++ after) ∧
        ((replay history).insert k v).items = before ++
          (if ∃ e ∈ before ++ after, hash e.1 = hash k then k' else k, v) :: after := by
  have hvalid := valid_replay history
  have hset : ((replay history).insert k v).items = ((replay history).insert k v).toList := by
    have hitems := items_replay (history ++ [.set k v])
    rwa [replay_append_singleton] at hitems
  rw [items_replay, hset]
  constructor
  · intro hnone
    exact ⟨(erase?_eq_none_iff hvalid k).2 hnone, toList_insert_ordered hvalid v hnone⟩
  · intro old hsome
    obtain ⟨before, k', after, hk', hold, hnew⟩ := toList_insert_of_some hvalid v hsome
    have hordered := hvalid.pairwise_precedes
    rw [hold] at hordered
    refine ⟨before, k', after, hold, hk', not_sameKey_of_split hordered hk', ?_, hnew⟩
    cases herase : (replay history).erase? k with
    | none =>
      rw [(erase?_eq_none_iff hvalid k).1 herase] at hsome
      cases hsome
    | some m =>
      have hdelete : m.items = m.toList := by
        have hitems := items_replay (history ++ [.delete k])
        rwa [replay_append_singleton, Update.apply, herase] at hitems
      refine ⟨m, rfl, ?_⟩
      rw [hdelete, toList_erase_eq_filter hvalid herase, hold, filter_not_sameKey hordered hk']

/-- A key with the hash of the first two entries goes behind both of them.  Set again, the second
entry keeps its label, and the third one takes another label. -/
theorem update_labelledHistory :
    (∃ before after, before ++ after = [(⟨1, 0⟩, 10), (⟨2, 0⟩, 20), (⟨3, 0⟩, 30)] ∧
      (∀ e ∈ after, RouteLT 5 (hash e.1)) ∧
      ((replay (labelledHistory.take 3)).insert ⟨0, 5⟩ 50).items =
        before ++ (⟨0, 5⟩, 50) :: after) ∧
    (∃ m, (replay (labelledHistory.take 3)).erase? ⟨2, 4⟩ = some m ∧
      m.items = [(⟨1, 0⟩, 10), (⟨3, 0⟩, 30)]) ∧
    ((replay (labelledHistory.take 3)).insert ⟨2, 4⟩ 21).items =
      [(⟨1, 0⟩, 10), (⟨2, 0⟩, 21), (⟨3, 0⟩, 30)] ∧
    ((replay (labelledHistory.take 3)).insert ⟨3, 9⟩ 31).items =
      [(⟨1, 0⟩, 10), (⟨2, 0⟩, 20), (⟨3, 9⟩, 31)] := by
  have hitems : (replay (labelledHistory.take 3)).items =
      [(⟨1, 0⟩, 10), (⟨2, 0⟩, 20), (⟨3, 0⟩, 30)] := items_replay _
  obtain ⟨hnew, -⟩ := replay_update_items (labelledHistory.take 3) ⟨0, 5⟩ 50
  obtain ⟨-, before, after, hsplit, -, hafter, hset⟩ := hnew rfl
  obtain ⟨-, hshared⟩ := replay_update_items (labelledHistory.take 3) ⟨2, 4⟩ 21
  obtain ⟨before₂, k₂, after₂, hsplit₂, -, -, herase, hset₂⟩ := hshared 20 rfl
  obtain ⟨-, halone⟩ := replay_update_items (labelledHistory.take 3) ⟨3, 9⟩ 31
  obtain ⟨before₃, k₃, after₃, hsplit₃, -, -, -, hset₃⟩ := halone 30 rfl
  -- the values tell where the entries of both keys stand
  obtain ⟨rfl, rfl, rfl⟩ : before₂ = [(⟨1, 0⟩, 10)] ∧ k₂ = ⟨2, 0⟩ ∧ after₂ = [(⟨3, 0⟩, 30)] := by
    simpa [hitems, List.cons_eq_append_iff] using hsplit₂
  obtain ⟨rfl, rfl, rfl⟩ : before₃ = [(⟨1, 0⟩, 10), (⟨2, 0⟩, 20)] ∧ k₃ = ⟨3, 0⟩ ∧ after₃ = [] := by
    simpa [hitems, List.cons_eq_append_iff] using hsplit₃
  refine ⟨⟨before, after, hsplit.symm.trans hitems, hafter, hset⟩, herase, ?_, ?_⟩
  · rw [hset₂, if_pos (by decide)]
    rfl
  · rw [hset₃, if_neg (by decide)]
    rfl

end Precedes

end HashTrie

end TraceOpt
