import Mathlib.Data.Finmap
import TraceOpt.Proofs.HashTrie.Lookup

/-!
# Hash tries are finite maps

A history of updates is replayed on a trie and on a finite map, in which keys stand for all that
are the same to the trie.  Both give the same answers, whatever the hash function
(`replay_agrees`), so a trie answers with what its history says (`replay_eq_reference`).
-/

namespace TraceOpt

namespace HashTrie

universe u v w

variable {K : Type u} {V : Type v}

/-! ### Histories -/

/-- An update of a map. -/
inductive Update (K : Type u) (V : Type v) where
  /-- Binds a key to a value. -/
  | set (key : K) (value : V)
  /-- Takes a key out, if it is there. -/
  | delete (key : K)

namespace Update

/-- The key that an update is about. -/
def key : Update K V → K
  | set key _ | delete key => key

/-- The value of the key after the update. -/
def value? : Update K V → Option V
  | set _ value => some value
  | delete _ => none

/-- A trie after an update; where the key to delete is absent, it stays as it is. -/
def apply [BEq K] [Hashable K] (m : HashTrie K V) : Update K V → HashTrie K V
  | set key value => m.insert key value
  | delete key => (m.erase? key).getD m

/-- A finite map after an update, with keys named by `name`. -/
def applyTo {C : Type w} [DecidableEq C] (name : K → C) (r : Finmap fun _ : C => V) :
    Update K V → Finmap fun _ : C => V
  | set key value => r.insert (name key) value
  | delete key => r.erase (name key)

end Update

section Replay

variable [BEq K] [Hashable K]

/-- The trie that a history leaves behind, first update first. -/
def replay (history : List (Update K V)) : HashTrie K V := history.foldl Update.apply empty

/-- The value that the last update of a key in a history gave to it. -/
def lastValue? (history : List (Update K V)) (k : K) : Option V :=
  (history.reverse.find? fun u => SameKey u.key k).bind Update.value?

end Replay

/-- The finite map that a history leaves behind, with keys named by `name`. -/
def reference {C : Type w} [DecidableEq C] (name : K → C) (history : List (Update K V)) :
    Finmap fun _ : C => V :=
  history.foldl (Update.applyTo name) ∅

/-! ### Keys up to equality -/

/-- Keys that `==` tells to be equal. -/
def keySetoid (K : Type u) [BEq K] [EquivBEq K] : Setoid K where
  r a b := (a == b) = true
  iseqv := ⟨fun _ => BEq.rfl, BEq.symm, BEq.trans⟩

/-- A key up to `==`. -/
abbrev KeyClass (K : Type u) [BEq K] [EquivBEq K] : Type u := Quotient (keySetoid K)

/-- The class of a key. -/
def keyClass [BEq K] [EquivBEq K] (k : K) : KeyClass K := Quotient.mk (keySetoid K) k

theorem keyClass_eq_iff [BEq K] [EquivBEq K] {a b : K} :
    keyClass a = keyClass b ↔ (a == b) = true :=
  Quotient.eq (r := keySetoid K)

instance [BEq K] [EquivBEq K] : DecidableEq (KeyClass K) :=
  @Quotient.decidableEq K (keySetoid K) fun a b => inferInstanceAs (Decidable ((a == b) = true))

/-! ### The trie follows the finite map -/

variable {C : Type w} [DecidableEq C] {name : K → C}

theorem finmap_keys_insert (r : Finmap fun _ : C => V) (c : C) (value : V) :
    (r.insert c value).keys = Insert.insert c r.keys := by
  ext c'
  rw [Finmap.mem_keys, Finmap.mem_insert, Finset.mem_insert, Finmap.mem_keys]

theorem lookup_applyTo (r : Finmap fun _ : C => V) (u : Update K V) (c : C) :
    (u.applyTo name r).lookup c = if name u.key = c then u.value? else r.lookup c := by
  cases u with
  | set key value =>
    split_ifs with hc
    · obtain rfl : name key = c := hc
      exact Finmap.lookup_insert r
    · exact Finmap.lookup_insert_of_ne r (Ne.symm hc)
  | delete key =>
    split_ifs with hc
    · obtain rfl : name key = c := hc
      exact Finmap.lookup_erase _ r
    · exact Finmap.lookup_erase_ne (Ne.symm hc)

variable [BEq K] [Hashable K]

theorem lookup_reference (hname : ∀ a b, name a = name b ↔ SameKey a b)
    (history : List (Update K V)) (k : K) :
    (reference name history).lookup (name k) = lastValue? history k := by
  induction history using List.reverseRecOn with
  | nil => rfl
  | append_singleton history u ih =>
    rw [reference, List.foldl_append, List.foldl_cons, List.foldl_nil, lookup_applyTo, lastValue?,
      List.reverse_append, List.reverse_singleton, List.singleton_append, List.find?_cons]
    by_cases hk : SameKey u.key k
    · simp [hk, (hname _ _).2 hk]
    · simp only [hk, decide_false, if_neg fun h => hk ((hname _ _).1 h)]
      exact ih

/-- A trie and a finite map that answer alike and hold the same number of keys. -/
structure Agrees (name : K → C) (m : HashTrie K V) (r : Finmap fun _ : C => V) : Prop where
  valid : m.Valid
  find?_eq : ∀ k, m.find? k = r.lookup (name k)
  size_eq : m.size = r.keys.card

theorem Agrees.step [EquivBEq K] (hname : ∀ a b, name a = name b ↔ SameKey a b)
    {m : HashTrie K V} {r : Finmap fun _ : C => V} (h : Agrees name m r) (u : Update K V) :
    Agrees name (u.apply m) (u.applyTo name r) := by
  -- updates of both kinds give their value to their key and leave the others alone
  have hfind (m' : HashTrie K V) (hm' : ∀ k, m'.find? k =
      if SameKey u.key k then u.value? else m.find? k) (k : K) :
      m'.find? k = (u.applyTo name r).lookup (name k) := by
    rw [hm', lookup_applyTo, h.find?_eq]
    exact if_congr (hname _ _).symm rfl rfl
  cases u with
  | set key value =>
    refine ⟨h.valid.insert key value, hfind _ (find?_insert h.valid key value), ?_⟩
    rw [Update.apply, size_insert h.valid, h.size_eq, h.find?_eq, Update.applyTo,
      finmap_keys_insert]
    by_cases hmem : name key ∈ r
    · rw [Finset.insert_eq_of_mem (Finmap.mem_keys.2 hmem)]
      obtain ⟨v, hv⟩ := Finmap.mem_iff.1 hmem
      simp [hv]
    · rw [Finset.card_insert_of_notMem fun hk => hmem (Finmap.mem_keys.1 hk),
        Finmap.lookup_eq_none.2 hmem]
      rfl
  | delete key =>
    cases he : m.erase? key with
    | none =>
      have hnone := (erase?_eq_none_iff h.valid key).1 he
      have hmem : name key ∉ r := Finmap.lookup_eq_none.1 (h.find?_eq key ▸ hnone)
      have happly : (Update.delete key : Update K V).apply m = m := by rw [Update.apply, he]; rfl
      rw [happly]
      refine ⟨h.valid, hfind m fun k => ?_, ?_⟩
      · split_ifs with hk
        · rw [h.find?_eq, ← (hname _ _).2 hk, ← h.find?_eq]
          exact hnone
        · rfl
      · rw [Update.applyTo, Finmap.keys_erase,
          Finset.erase_eq_of_notMem fun hk => hmem (Finmap.mem_keys.1 hk), h.size_eq]
    | some m' =>
      have hne : m.find? key ≠ none := fun hnone => by
        rw [(erase?_eq_none_iff h.valid key).2 hnone] at he
        cases he
      have hmem : name key ∈ r := by
        by_contra hmem
        exact hne (by rw [h.find?_eq, Finmap.lookup_eq_none.2 hmem])
      have happly : (Update.delete key : Update K V).apply m = m' := by rw [Update.apply, he]; rfl
      rw [happly]
      refine ⟨h.valid.erase he, hfind m' (find?_erase h.valid he), ?_⟩
      rw [size_erase he, Update.applyTo, Finmap.keys_erase,
        Finset.card_erase_of_mem (Finmap.mem_keys.2 hmem), h.size_eq]

/-- Replaying a history keeps a trie and a finite map in step, whatever the hash function. -/
theorem replay_agrees [EquivBEq K] (hname : ∀ a b, name a = name b ↔ SameKey a b)
    (history : List (Update K V)) : Agrees name (replay history) (reference name history) := by
  induction history using List.reverseRecOn with
  | nil => exact ⟨valid_empty, fun _ => rfl, rfl⟩
  | append_singleton history u ih =>
    rw [replay, reference, List.foldl_append, List.foldl_append]
    exact ih.step hname u

/-- The name of a key for a trie: its hash, and the key up to `==`. -/
def hashedName [EquivBEq K] (k : K) : UInt64 × KeyClass K := (hash k, keyClass k)

theorem hashedName_eq_iff [EquivBEq K] (a b : K) :
    hashedName a = hashedName b ↔ SameKey a b := by
  rw [hashedName, hashedName, Prod.mk.injEq, keyClass_eq_iff, SameKey]

/-- **A trie is a finite map.**  After any history of updates, and whatever the hash function, a
trie answers like the finite map whose keys are pairs of a hash and a key up to `==`: it holds for
every key the value that the key was last set to and not deleted since, deletes exactly the keys
that are there, and counts them.  Where equal keys have equal hashes, it answers like the finite
map whose keys are keys up to `==`. -/
theorem replay_eq_reference [EquivBEq K] (history : List (Update K V)) :
    (∀ k, (replay history).find? k = (reference hashedName history).lookup (hashedName k)) ∧
    (∀ k, (replay history).find? k = lastValue? history k) ∧
    (∀ k fallback,
      (replay history).findD k fallback = (lastValue? history k).getD fallback) ∧
    (∀ k, (replay history).contains k = (lastValue? history k).isSome) ∧
    (∀ k, (replay history).erase? k = none ↔ lastValue? history k = none) ∧
    (∀ k m, (replay history).erase? k = some m → (replay history).size = m.size + 1) ∧
    (replay history).size = (reference hashedName history).keys.card ∧
    ((∀ a b : K, (a == b) = true → hash a = hash b) →
      (∀ k, (replay history).find? k = (reference keyClass history).lookup (keyClass k)) ∧
      (replay history).size = (reference keyClass history).keys.card) := by
  have h := replay_agrees hashedName_eq_iff history
  have hlast (k : K) : (replay history).find? k = lastValue? history k := by
    rw [h.find?_eq, lookup_reference hashedName_eq_iff]
  refine ⟨h.find?_eq, hlast, fun k fallback => by rw [findD, hlast],
    fun k => by rw [contains, hlast], fun k => by rw [erase?_eq_none_iff h.valid, hlast],
    fun k m hm => ?_, h.size_eq, fun hlawful => ?_⟩
  · -- deleting a key that is there leaves one key less in a map that is not empty
    have hk : hashedName k ∈ (reference hashedName history).keys := by
      rw [Finmap.mem_keys]
      by_contra hk
      have hnone : (replay history).find? k = none := by
        rw [h.find?_eq, Finmap.lookup_eq_none.2 hk]
      rw [(erase?_eq_none_iff h.valid k).2 hnone] at hm
      cases hm
    have hpos := Finset.card_pos.2 ⟨_, hk⟩
    rw [size_erase hm, h.size_eq]
    omega
  · have hname (a b : K) : keyClass a = keyClass b ↔ SameKey a b := by
      rw [keyClass_eq_iff]
      exact ⟨fun hab => ⟨hlawful a b hab, hab⟩, fun hab => hab.2⟩
    have h' := replay_agrees hname history
    exact ⟨h'.find?_eq, h'.size_eq⟩

/-- A key with a label that equality ignores, and with few hashes. -/
structure Labelled where
  /-- What equality looks at. -/
  number : Nat
  /-- What equality ignores. -/
  label : Nat

instance : BEq Labelled := ⟨fun a b => a.number == b.number⟩

instance : EquivBEq Labelled where
  symm h := BEq.symm (α := Nat) h
  trans h h' := BEq.trans (α := Nat) h h'
  rfl := BEq.rfl (α := Nat)

instance : Hashable Labelled := ⟨fun k => if k.number < 3 then 5 else 37⟩

/-- A history with keys that share a whole hash or a part of one. -/
def labelledHistory : List (Update Labelled Nat) :=
  [.set ⟨1, 0⟩ 10, .set ⟨2, 0⟩ 20, .set ⟨3, 0⟩ 30, .set ⟨2, 4⟩ 21, .delete ⟨1, 7⟩, .delete ⟨4, 0⟩]

theorem replay_labelledHistory :
    (replay labelledHistory).find? ⟨2, 9⟩ = some 21 ∧
    (replay labelledHistory).find? ⟨1, 0⟩ = none ∧
    (replay labelledHistory).erase? ⟨4, 0⟩ = none ∧ (replay labelledHistory).size = 2 ∧
    (∀ a b : Labelled, (a == b) = true → hash a = hash b) ∧
    ∀ k, (replay labelledHistory).find? k =
      (reference keyClass labelledHistory).lookup (keyClass k) := by
  obtain ⟨-, hfind, -, -, herase, -, hsize, hkeys⟩ := replay_eq_reference labelledHistory
  have hlawful : ∀ a b : Labelled, (a == b) = true → hash a = hash b := by
    intro a b hab
    have hnumber : a.number = b.number := eq_of_beq hab
    change (if a.number < 3 then (5 : UInt64) else 37) = if b.number < 3 then 5 else 37
    rw [hnumber]
  exact ⟨hfind _, hfind _, (herase _).2 rfl, hsize, hlawful, (hkeys hlawful).1⟩

end HashTrie

end TraceOpt
