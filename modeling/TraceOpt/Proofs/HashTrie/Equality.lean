import TraceOpt.Proofs.HashTrie.Canonical
import TraceOpt.Proofs.HashTrie.Order

/-!
# Equality of maps

`==` compares the numbers of keys of two maps and looks up the entries of the first map in the
second one.  It never walks over the second map: a map lists each of its keys once, so that a map
with as many keys as another one and all its keys has no further keys.

* `EqualContents`: the same keys, with equal values.
* `names`: the keys of a map up to `==`, each once (`nodup_names`).
* `names_perm`: a map with as many keys as another one and all its keys has no further keys.
* `beq_iff_equalContents`: `==` is equality of contents.
* `replay_beq`: the same for maps after any histories.
-/

namespace TraceOpt

namespace HashTrie

universe u v

variable {K : Type u} {V : Type v}

/-! ### Equal contents -/

theorem equivalence_optionRel {r : V → V → Prop} (hr : Equivalence r) :
    Equivalence (Option.Rel r) where
  refl
    | none => .none
    | some v => .some (hr.refl v)
  symm
    | .none => .none
    | .some h => .some (hr.symm h)
  trans
    | .none, .none => .none
    | .some h, .some h' => .some (hr.trans h h')

variable [BEq K] [Hashable K]

/-- Every key is absent from both maps, or present in both with values that are equal under `==`. -/
def EqualContents [BEq V] (a b : HashTrie K V) : Prop :=
  ∀ k, Option.Rel (fun v w => (v == w) = true) (a.find? k) (b.find? k)

theorem equivalence_equalContents [BEq V] [EquivBEq V] :
    Equivalence (EqualContents (K := K) (V := V)) := by
  have hvalues : Equivalence fun v w : V => (v == w) = true :=
    ⟨fun _ => BEq.rfl, BEq.symm, BEq.trans⟩
  have hrel := equivalence_optionRel hvalues
  exact ⟨fun a k => hrel.refl (a.find? k), fun h k => hrel.symm (h k),
    fun h h' k => hrel.trans (h k) (h' k)⟩

theorem EqualContents.find?_eq_none_iff [BEq V] {a b : HashTrie K V} (h : EqualContents a b)
    (k : K) : a.find? k = none ↔ b.find? k = none := by
  have hrel := h k
  generalize a.find? k = x at hrel ⊢
  generalize b.find? k = y at hrel ⊢
  cases hrel <;> simp

/-! ### The keys of a map -/

variable [EquivBEq K] {a b : HashTrie K V}

/-- The keys of a map, by their hashes and up to `==`. -/
def names (m : HashTrie K V) : List (UInt64 × KeyClass K) := m.toList.map fun e => hashedName e.1

theorem mem_names_iff (ha : a.Valid) (k : K) : hashedName k ∈ a.names ↔ a.find? k ≠ none := by
  rw [names, List.mem_map, Option.ne_none_iff_exists']
  simp only [find?_eq_some_iff ha, hashedName_eq_iff]
  constructor
  · rintro ⟨e, he, hsame⟩
    exact ⟨e.2, e, he, hsame, rfl⟩
  · rintro ⟨_, e, he, hsame, -⟩
    exact ⟨e, he, hsame⟩

/-- A map lists each of its keys once. -/
theorem nodup_names (ha : a.Valid) : a.names.Nodup := by
  rw [names, List.Nodup, List.pairwise_map]
  refine ha.pairwise_precedes.imp fun h hname => ?_
  exact h.not_sameKey ((hashedName_eq_iff _ _).1 hname)

theorem names_subset (ha : a.Valid) (hb : b.Valid)
    (h : ∀ k, a.find? k ≠ none → b.find? k ≠ none) : a.names ⊆ b.names := by
  intro name hname
  obtain ⟨e, -, rfl⟩ := List.mem_map.1 hname
  exact (mem_names_iff hb e.1).2 (h e.1 ((mem_names_iff ha e.1).1 hname))

/-- **A map with as many keys as another one and all its keys has no further keys.** -/
theorem names_perm (ha : a.Valid) (hlength : a.toList.length = b.toList.length)
    (hsub : a.names ⊆ b.names) : a.names.Perm b.names := by
  refine ((nodup_names ha).subperm hsub).perm_of_length_le ?_
  rw [names, names, List.length_map, List.length_map, hlength]

theorem find?_congr (ha : a.Valid) {k k' : K} (h : SameKey k k') : a.find? k = a.find? k' := by
  refine Option.ext fun v => ?_
  simp only [find?_eq_some_iff ha, sameKey_congr h]

/-! ### The comparison -/

variable [BEq V] [EquivBEq V]

/-- Maps that list as many entries have equal contents if the second one has all entries of the
first one. -/
theorem equalContents_of_all (ha : a.Valid) (hb : b.Valid)
    (hlength : a.toList.length = b.toList.length)
    (hall : ∀ e ∈ a.toList, (b.find? e.1 == some e.2) = true) : EqualContents a b := by
  -- an entry of the first map is found in the second one under any key that is the same
  have hfound : ∀ k v, a.find? k = some v → ∃ w, b.find? k = some w ∧ (v == w) = true := by
    intro k v hv
    obtain ⟨e, he, hsame, rfl⟩ := (find?_eq_some_iff ha).1 hv
    have hbeq := hall e he
    rw [find?_congr hb hsame] at hbeq
    cases hw : b.find? k with
    | none =>
      rw [hw] at hbeq
      cases hbeq
    | some w =>
      rw [hw] at hbeq
      exact ⟨w, rfl, BEq.symm hbeq⟩
  have hsub : a.names ⊆ b.names := by
    refine names_subset ha hb fun k hk => ?_
    obtain ⟨v, hv⟩ := Option.ne_none_iff_exists'.1 hk
    obtain ⟨w, hw, -⟩ := hfound k v hv
    simp [hw]
  have hperm := names_perm ha hlength hsub
  intro k
  cases hv : a.find? k with
  | none =>
    have hnone : b.find? k = none := by
      by_contra hk
      exact (mem_names_iff ha k).1 (hperm.mem_iff.2 ((mem_names_iff hb k).2 hk)) hv
    rw [hnone]
    exact .none
  | some v =>
    obtain ⟨w, hw, hvw⟩ := hfound k v hv
    rw [hw]
    exact .some hvw

omit [EquivBEq V] in
theorem EqualContents.length_eq (h : EqualContents a b) (ha : a.Valid) (hb : b.Valid) :
    a.toList.length = b.toList.length := by
  have hperm : a.names.Perm b.names := by
    rw [List.perm_ext_iff_of_nodup (nodup_names ha) (nodup_names hb)]
    intro name
    exact ⟨fun hname => names_subset ha hb (fun k => mt (h.find?_eq_none_iff k).2) hname,
      fun hname => names_subset hb ha (fun k => mt (h.find?_eq_none_iff k).1) hname⟩
  simpa [names] using hperm.length_eq

theorem EqualContents.all (h : EqualContents a b) (ha : a.Valid) :
    ∀ e ∈ a.toList, (b.find? e.1 == some e.2) = true := by
  intro e he
  have hrel := h e.1
  rw [(find?_eq_some_iff ha).2 ⟨e, he, SameKey.refl _, rfl⟩] at hrel
  generalize b.find? e.1 = x at hrel ⊢
  cases hrel with
  | some hvw => exact BEq.symm (α := V) hvw

/-- **`==` is equality of contents** for maps that count their entries. -/
theorem beq_iff_equalContents (ha : a.Valid) (hb : b.Valid) (hsize : a.size = a.toList.length)
    (hsize' : b.size = b.toList.length) : (a == b) = true ↔ EqualContents a b := by
  change sameContents false a b = true ↔ EqualContents a b
  simp only [sameContents, Bool.false_or, Bool.and_eq_true, beq_iff_eq, List.all_eq_true, hsize,
    hsize']
  constructor
  · rintro ⟨hlength, hall⟩
    exact equalContents_of_all ha hb hlength hall
  · intro h
    exact ⟨h.length_eq ha hb, h.all ha⟩

/-- **Equality of maps is equality of contents.**  After any two histories, and whatever the hash
function, `==` holds exactly if every key is absent from both maps or present in both with equal
values.  This does not depend on whether a root that the maps share is told to the comparison, and
`==` is an equivalence. -/
theorem replay_beq :
    (∀ history history' : List (Update K V),
      ((replay history == replay history') = true ↔
        EqualContents (replay history) (replay history')) ∧
      ∀ shared, (shared = true → (replay history).root = (replay history').root) →
        sameContents shared (replay history) (replay history') =
          (replay history == replay history')) ∧
    Equivalence fun history history' : List (Update K V) =>
      (replay history == replay history') = true := by
  have hiff (history history' : List (Update K V)) :
      (replay history == replay history') = true ↔
        EqualContents (replay history) (replay history') :=
    beq_iff_equalContents (valid_replay history) (valid_replay history') (size_replay history)
      (size_replay history')
  have hequiv := equivalence_equalContents (K := K) (V := V)
  refine ⟨fun history history' => ⟨hiff history history', ?_⟩, ?_⟩
  · intro shared hshared
    cases shared with
    | false => rfl
    | true =>
      have hroot := hshared rfl
      have hsize : (replay history).size = (replay history').size := by
        rw [size_replay, size_replay, toList, toList, hroot]
      have hcontents : EqualContents (replay history) (replay history') := by
        intro k
        rw [find?, find?, hroot]
        exact hequiv.refl (replay history') k
      rw [(hiff history history').2 hcontents]
      simp [sameContents, hsize]
  · simp only [hiff]
    exact hequiv.comap replay

/-- Two histories that leave the same contents in different orders and with different labels. -/
theorem beq_shuffledHistory :
    (replay (labelledHistory.take 3) == replay shuffledHistory) = true ∧
    (replay shuffledHistory == replay (labelledHistory.take 3)) = true ∧
    EqualContents (replay (labelledHistory.take 3)) (replay shuffledHistory) ∧
    ¬ EqualContents (replay labelledHistory) (replay shuffledHistory) ∧
    sameContents true (replay shuffledHistory)
      (replay (shuffledHistory ++ [.set ⟨3, 9⟩ 30, .delete ⟨0, 0⟩])) = true := by
  obtain ⟨hiff, hequiv⟩ := replay_beq (K := Labelled) (V := Nat)
  have hsame : (replay (labelledHistory.take 3) == replay shuffledHistory) = true := rfl
  refine ⟨hsame, hequiv.symm hsame, (hiff _ _).1.1 hsame, fun h => ?_, ?_⟩
  · have hbeq := (hiff _ _).1.2 h
    cases hbeq
  · exact ((hiff _ _).2 true fun _ => rfl).trans rfl

end HashTrie

end TraceOpt
