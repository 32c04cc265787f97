import TraceOpt.Proofs.HashTrie.Order

/-!
# When keys arrived

A key arrives with an update that finds it absent and leaves it present; it may be deleted later and
arrive again.  Entries of a trie that share their hash stand in the order in which their keys last
arrived: a new entry of a bucket goes last, and an entry that takes a new value keeps its place.

* `arrivals`, `arrival?`: the updates with which a key arrived, told from the history alone.
* `arrival?_of_present`, `arrival?_of_absent`: what one update more does to arrivals.
* `ArrivalOrder.insert`, `ArrivalOrder.replace`: what one update does to the order of arrival.
* `arrivalOrder_replay`: the entries with one hash stand in the order of their arrival.
* `replay_items_ordered`: the items of a map after any history.
-/

namespace TraceOpt

namespace HashTrie

universe u v

variable {K : Type u} {V : Type v} [BEq K] [Hashable K]

/-- The places in a history of the updates with which a key arrives: before them the key is absent,
after them the key is there. -/
def arrivals (history : List (Update K V)) (k : K) : List Nat :=
  (List.range history.length).filter fun i =>
    (lastValue? (history.take i) k).isNone && (lastValue? (history.take (i + 1)) k).isSome

/-- The place in a history of the update with which a key last arrived. -/
def arrival? (history : List (Update K V)) (k : K) : Option Nat := (arrivals history k).getLast?

/-- Both keys arrived, the first one before the second one. -/
def ArrivedBefore (history : List (Update K V)) (a b : K) : Prop :=
  ∃ i j, arrival? history a = some i ∧ arrival? history b = some j ∧ i < j

/-- Among entries that share their hash, earlier ones are for keys that arrived earlier. -/
def ArrivalOrder (history : List (Update K V)) (entries : List (K × V)) : Prop :=
  entries.Pairwise fun a b => hash a.1 = hash b.1 → ArrivedBefore history a.1 b.1

/-! ### One update more -/

section

variable {history : List (Update K V)} {a b k : K}

theorem arrivals_append_singleton (history : List (Update K V)) (u : Update K V) (k : K) :
    arrivals (history ++ [u]) k = arrivals history k ++
      if (lastValue? history k).isNone && (lastValue? (history ++ [u]) k).isSome
      then [history.length] else [] := by
  have htake : (history ++ [u]).take (history.length + 1) = history ++ [u] :=
    List.take_of_length_le (by simp)
  rw [arrivals, List.length_append, List.length_singleton, List.range_succ, List.filter_append,
    List.filter_cons, List.filter_nil, List.take_left, htake]
  congr 1
  -- below the last place both histories are the same
  refine List.filter_congr fun i hi => ?_
  have hlt := List.mem_range.1 hi
  rw [List.take_append_of_le_length (Nat.le_of_lt hlt), List.take_append_of_le_length hlt]

/-- A key that is there does not arrive. -/
theorem arrival?_of_present (u : Update K V) (h : lastValue? history k ≠ none) :
    arrival? (history ++ [u]) k = arrival? history k := by
  rw [arrival?, arrivals_append_singleton, if_neg (by simp [h]), List.append_nil, arrival?]

/-- A key that was absent arrives with the update that leaves it present. -/
theorem arrival?_of_absent {u : Update K V} (h : lastValue? history k = none)
    (hu : lastValue? (history ++ [u]) k ≠ none) :
    arrival? (history ++ [u]) k = some history.length := by
  rw [arrival?, arrivals_append_singleton, if_pos (by simp [h, Option.isSome_iff_ne_none, hu]),
    List.getLast?_append]
  rfl

theorem exists_arrival (h : lastValue? history k ≠ none) :
    ∃ i < history.length, arrival? history k = some i := by
  induction history using List.reverseRecOn with
  | nil => exact absurd rfl h
  | append_singleton history u ih =>
    rw [List.length_append, List.length_singleton]
    by_cases hbefore : lastValue? history k = none
    · exact ⟨history.length, Nat.lt_succ_self _, arrival?_of_absent hbefore h⟩
    · obtain ⟨i, hi, harrival⟩ := ih hbefore
      exact ⟨i, Nat.lt_succ_of_lt hi, (arrival?_of_present u hbefore).trans harrival⟩

variable [EquivBEq K]

theorem find?_replay (history : List (Update K V)) (k : K) :
    (replay history).find? k = lastValue? history k := by
  rw [(replay_agrees hashedName_eq_iff history).find?_eq, lookup_reference hashedName_eq_iff]

theorem lastValue?_congr (history : List (Update K V)) (h : SameKey a b) :
    lastValue? history a = lastValue? history b := by
  simp only [lastValue?, sameKey_congr h]

theorem arrival?_congr (history : List (Update K V)) (h : SameKey a b) :
    arrival? history a = arrival? history b := by
  simp only [arrival?, arrivals, lastValue?_congr _ h]

/-! ### The order of arrival -/

namespace ArrivalOrder

variable {entries before after : List (K × V)}

omit [EquivBEq K] in
/-- Keys that are there do not arrive. -/
theorem append (h : ArrivalOrder history entries)
    (hpresent : ∀ e ∈ entries, lastValue? history e.1 ≠ none) (u : Update K V) :
    ArrivalOrder (history ++ [u]) entries := by
  refine h.imp_of_mem fun {a b} ha hb hab => ?_
  rwa [ArrivedBefore, arrival?_of_present u (hpresent a ha), arrival?_of_present u (hpresent b hb)]

/-- An entry takes another value and perhaps another key that is the same to a trie. -/
theorem replace {v v' : V} (h : ArrivalOrder history (before ++ (a, v) :: after))
    (hab : SameKey a b) : ArrivalOrder history (before ++ (b, v') :: after) := by
  simp only [ArrivalOrder, ArrivedBefore, List.pairwise_append, List.pairwise_cons, List.mem_cons,
    forall_eq_or_imp, hab.1, arrival?_congr history hab] at h ⊢
  exact h

omit [EquivBEq K] in
/-- A key that arrives now goes after all that share its hash. -/
theorem insert {v : V} {i : Nat} (h : ArrivalOrder history (before ++ after))
    (hk : arrival? history k = some i)
    (hbefore : ∀ e ∈ before, ∃ j < i, arrival? history e.1 = some j)
    (hafter : ∀ e ∈ after, hash e.1 ≠ hash k) :
    ArrivalOrder history (before ++ (k, v) :: after) := by
  obtain ⟨hleft, hright, hcross⟩ := List.pairwise_append.1 h
  refine List.pairwise_append.2 ⟨hleft, List.pairwise_cons.2 ⟨?_, hright⟩, ?_⟩
  · intro e he hhash
    exact absurd hhash.symm (hafter e he)
  · intro e he e' he'
    rcases List.mem_cons.1 he' with rfl | he'
    · intro _
      obtain ⟨j, hj, harrival⟩ := hbefore e he
      exact ⟨j, i, harrival, hk, hj⟩
    · exact hcross e he e' he'

end ArrivalOrder

/-- **Entries that share their hash stand in the order in which their keys last arrived.** -/
theorem arrivalOrder_replay (history : List (Update K V)) :
    ArrivalOrder history (replay history).toList := by
  induction history using List.reverseRecOn with
  | nil => exact List.Pairwise.nil
  | append_singleton history u ih =>
    have hvalid := valid_replay history
    have hpresent : ∀ e ∈ (replay history).toList, lastValue? history e.1 ≠ none := by
      intro e he hnone
      rw [← find?_replay, (find?_eq_some_iff hvalid).2 ⟨e, he, SameKey.refl _, rfl⟩] at hnone
      cases hnone
    have hold := ih.append hpresent u
    rw [replay_append_singleton]
    cases u with
    | set key value =>
      rw [Update.apply]
      cases hfind : (replay history).find? key with
      | none =>
        obtain ⟨before, after, hsplit, hafter, hnew⟩ := toList_insert_of_none hvalid value hfind
        rw [hsplit] at hold hpresent
        rw [hnew]
        refine hold.insert (i := history.length) (arrival?_of_absent ?_ ?_) ?_ hafter
        · rw [← find?_replay, hfind]
        · rw [← find?_replay, replay_append_singleton, Update.apply, find?_insert hvalid,
            if_pos (SameKey.refl key)]
          exact Option.some_ne_none value
        · -- all other keys arrived before
          intro e he
          have hthere := hpresent e (List.mem_append_left after he)
          obtain ⟨j, hj, harrival⟩ := exists_arrival hthere
          exact ⟨j, hj, (arrival?_of_present _ hthere).trans harrival⟩
      | some v =>
        obtain ⟨before, k, after, hk, hsplit, hnew⟩ := toList_insert_of_some hvalid value hfind
        rw [hsplit] at hold
        rw [hnew]
        split_ifs
        · exact hold.replace (SameKey.refl k)
        · exact hold.replace hk
    | delete key =>
      rw [Update.apply]
      cases herase : (replay history).erase? key with
      | none => exact hold
      | some m =>
        obtain ⟨before, e, after, -, hsplit, hnew⟩ := toList_erase hvalid herase
        rw [hsplit] at hold
        rw [Option.getD_some, hnew]
        exact List.Pairwise.sublist ((List.sublist_cons_self e after).append_left before) hold

end

/-- **The items of a map.**  After any history, and whatever the hash function, a walk over the map
gives every key that is there once, with its value, and nothing else.  Items with different hashes
come in the order of the routes of their hashes, and items with the same hash in the order in which
their keys last arrived. -/
theorem replay_items_ordered [EquivBEq K] (history : List (Update K V)) :
    (∀ k, ((replay history).items.filter fun e => SameKey e.1 k).map (·.2) =
      ((replay history).find? k).toList) ∧
    (replay history).items.Pairwise fun a b =>
      (hash a.1 ≠ hash b.1 → RouteLT (hash a.1) (hash b.1)) ∧
      (hash a.1 = hash b.1 → ArrivedBefore history a.1 b.1) := by
  have hvalid := valid_replay history
  rw [items_replay]
  refine ⟨filter_sameKey hvalid, ?_⟩
  exact (hvalid.pairwise_precedes.imp fun h => h.routeLT).and (arrivalOrder_replay history)

/-- A key that is deleted and set again stands behind the key that was there all the time. -/
theorem items_rearrival :
    let history := labelledHistory.take 3 ++ [.delete ⟨1, 0⟩, .set ⟨1, 1⟩ 11, .set ⟨2, 4⟩ 22]
    (replay history).items = [(⟨2, 0⟩, 22), (⟨1, 1⟩, 11), (⟨3, 0⟩, 30)] ∧
    ArrivedBefore history ⟨2, 0⟩ ⟨1, 1⟩ ∧ RouteLT 5 37 ∧
    ((replay history).items.filter fun e => SameKey e.1 ⟨1, 0⟩).map (·.2) = [11] := by
  intro history
  have hitems : (replay history).items = [(⟨2, 0⟩, 22), (⟨1, 1⟩, 11), (⟨3, 0⟩, 30)] :=
    items_replay _
  obtain ⟨honce, hordered⟩ := replay_items_ordered history
  rw [hitems, List.pairwise_cons] at hordered
  obtain ⟨-, harrived⟩ := hordered.1 (⟨1, 1⟩, 11) (by simp)
  obtain ⟨hroute, -⟩ := hordered.1 (⟨3, 0⟩, 30) (by simp)
  exact ⟨hitems, harrived rfl, hroute (by decide), honce ⟨1, 0⟩⟩

end HashTrie

end TraceOpt
