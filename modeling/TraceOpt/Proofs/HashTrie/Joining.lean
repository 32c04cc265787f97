import TraceOpt.Proofs.HashTrie.Shape

/-!
# Where a trie splits

A key whose hash leads to a leaf or bucket with another hash splits a trie there: the two nodes are
joined one level after another, for as long as their hashes pick the same slot.  Nothing in this
recursion asks how deep it is.  It ends because the nodes at the end of a path share the chunks of
the path, so that different hashes have to part further down, at the last chunk at the latest.

* `Node.Joins`: the calls for a join that inserting a key makes, those made by other calls included.
* `Chain`: what a join should give, without a bound on its recursion.
* `Joining.Fits`: what is true of the arguments of every call; `Joining.Fits.exists_chain` and
  `Joining.Fits.find?_result` draw the conclusions.
* `replay_joins`: every call after any history, and that calls are what new branches come from.
-/

namespace TraceOpt

namespace HashTrie

universe u v

variable {K : Type u} {V : Type v}

/-! ### Calls -/

/-- The arguments of a call for a join: a depth, and two nodes that hold one hash each. -/
structure Joining (K : Type u) (V : Type v) where
  depth : Nat
  a : Node K V
  aHash : UInt64
  b : Node K V
  bHash : UInt64

namespace Joining

/-- What the call gives. -/
def result (j : Joining K V) : Node K V := Node.join j.depth j.a j.aHash j.b j.bHash

/-- The call for the same nodes one level further down. -/
def deeper (j : Joining K V) : Joining K V := { j with depth := j.depth + 1 }

end Joining

/-- The calls that inserting a key below a node at a depth makes: one where the way of the hash ends
at another hash, and those that a call makes in turn. -/
inductive Node.Joins (hash : UInt64) (key : K) (value : V) : Nat → Node K V → Joining K V → Prop
  | leaf {depth : Nat} {h : UInt64} {k : K} {v : V} (hne : h ≠ hash) :
      Joins hash key value depth (.leaf h k v)
        ⟨depth, .leaf h k v, h, .leaf hash key value, hash⟩
  | bucket {depth : Nat} {h : UInt64} {entries : List (K × V)} (hne : h ≠ hash) :
      Joins hash key value depth (.bucket h entries)
        ⟨depth, .bucket h entries, h, .leaf hash key value, hash⟩
  | descend {depth : Nat} {slots : Bitmap} {children : List (Node K V)} {n : Node K V}
      {j : Joining K V} (hn : child? slots children (chunk hash depth) = some n)
      (hj : Joins hash key value (depth + 1) n j) :
      Joins hash key value depth (.branch slots children) j
  | deeper {depth : Nat} {n : Node K V} {j : Joining K V} (hj : Joins hash key value depth n j)
      (heq : chunk j.aHash j.depth = chunk j.bHash j.depth) :
      Joins hash key value depth n j.deeper

/-- The calls that binding a key in a map makes. -/
def Joins [Hashable K] (m : HashTrie K V) (key : K) (value : V) (j : Joining K V) : Prop :=
  ∃ root, m.root = some root ∧ root.Joins (hash key) key value 0 j

/-- Branches from one depth down to another: each has the next for its only child, in the slot that
both hashes pick, and the last has both nodes, the one with the lower slot first. -/
inductive Chain (a : Node K V) (aHash : UInt64) (b : Node K V) (bHash : UInt64) :
    Nat → Nat → Node K V → Prop
  | first {d : Nat} (hlt : chunk aHash d < chunk bHash d) :
      Chain a aHash b bHash d d
        (.branch ((Bitmap.single (chunk aHash d)).add (chunk bHash d)) [a, b])
  | second {d : Nat} (hlt : chunk bHash d < chunk aHash d) :
      Chain a aHash b bHash d d
        (.branch ((Bitmap.single (chunk aHash d)).add (chunk bHash d)) [b, a])
  | link {d fork : Nat} {n : Node K V} (heq : chunk aHash d = chunk bHash d)
      (h : Chain a aHash b bHash (d + 1) fork n) :
      Chain a aHash b bHash d fork (.branch (.single (chunk aHash d)) [n])

theorem route_eq_iff {a b : UInt64} {d : Nat} :
    route a d = route b d ↔ ∀ i < d, chunk a i = chunk b i := by
  simp [route, List.map_inj_left]

/-! ### Nodes along paths -/

namespace Node

variable {root n : Node K V} {path : List Nat} {slots : Bitmap} {children : List (Node K V)}

theorem eq_root_of_at_nil (h : root.At [] n) : n = root := by
  generalize hpath : [] = path at h
  cases h with
  | root => rfl
  | child => simp at hpath

theorem At.cons {i : Nat} {m : Node K V} (hi : child? slots children i = some m)
    (h : m.At path n) : (branch slots children).At (i :: path) n := by
  induction h with
  | root =>
    have hroot : (branch slots children).At [] (branch slots children) := .root
    exact hroot.child hi
  | child _ hj ih => exact ih.child hj

theorem exists_at_of_at_cons {i : Nat} (h : root.At (i :: path) n) :
    ∃ slots children m, root = branch slots children ∧ child? slots children i = some m ∧
      m.At path n := by
  generalize hpath : i :: path = whole at h
  induction h generalizing path with
  | root => cases hpath
  | @child before slots children k n h hk ih =>
    cases before with
    | nil =>
      obtain ⟨rfl, rfl⟩ := List.cons.inj hpath
      exact ⟨slots, children, n, (eq_root_of_at_nil h).symm, hk, .root⟩
    | cons i' before =>
      obtain ⟨rfl, rfl⟩ := List.cons.inj hpath
      obtain ⟨slots', children', m, hroot, hm, hat⟩ := ih rfl
      exact ⟨slots', children', m, hroot, hm, hat.child hk⟩

/-- There is no branch below a leaf or a bucket. -/
theorem not_at_branch (hb : root.isBranch = false) : ¬ root.At path (branch slots children) := by
  intro h
  cases path with
  | nil =>
    rw [← eq_root_of_at_nil h] at hb
    cases hb
  | cons i path =>
    obtain ⟨slots', children', m, rfl, -⟩ := exists_at_of_at_cons h
    cases hb

end Node

/-! ### What is true of calls -/

variable [BEq K] [Hashable K]

/-- A node that may stand anywhere along the route of a hash. -/
structure Node.Along (h : UInt64) (n : Node K V) : Prop where
  /-- It is a leaf or a bucket. -/
  isBranch_eq : n.isBranch = false
  valid : ∀ d, Node.Valid (route h d) n

theorem Node.Along.hash_eq {h : UInt64} {n : Node K V} (hn : n.Along h) {e : K × V}
    (he : e ∈ n.toList) : hash e.1 = h := by
  have hroute := (hn.valid levels).route_of_mem he
  rw [length_route] at hroute
  exact eq_of_route_eq hroute

theorem Node.along_leaf (key : K) (value : V) :
    (Node.leaf (hash key) key value).Along (hash key) :=
  ⟨rfl, fun d => .leaf rfl (by rw [length_route])⟩

namespace Joining

/-- A call with different hashes that have picked the same slots so far. -/
structure Fits (j : Joining K V) : Prop where
  distinct : j.aHash ≠ j.bHash
  agree : route j.aHash j.depth = route j.bHash j.depth
  along_a : j.a.Along j.aHash
  along_b : j.b.Along j.bHash

namespace Fits

variable {j : Joining K V}

theorem depth_lt (h : j.Fits) : j.depth < levels := by
  by_contra hle
  refine h.distinct (eq_of_route_eq (route_eq_iff.2 fun i hi => ?_))
  exact route_eq_iff.1 h.agree i (by omega)

theorem deeper (h : j.Fits) (heq : chunk j.aHash j.depth = chunk j.bHash j.depth) :
    j.deeper.Fits := by
  refine ⟨h.distinct, ?_, h.along_a, h.along_b⟩
  change route j.aHash (j.depth + 1) = route j.bHash (j.depth + 1)
  rw [route_succ, route_succ, h.agree, heq]

theorem levels_sub (h : j.Fits) : levels - j.depth = levels - (j.depth + 1) + 1 := by
  have hlt := h.depth_lt
  omega

theorem result_of_eq (h : j.Fits) (heq : chunk j.aHash j.depth = chunk j.bHash j.depth) :
    j.result = .branch (.single (chunk j.aHash j.depth)) [j.deeper.result] := by
  rw [result, Node.join, h.levels_sub, Node.join_go_of_eq heq]
  rfl

theorem result_of_ne (h : j.Fits) (hne : chunk j.aHash j.depth ≠ chunk j.bHash j.depth) :
    j.result = .branch ((Bitmap.single (chunk j.aHash j.depth)).add (chunk j.bHash j.depth))
      (if chunk j.aHash j.depth < chunk j.bHash j.depth then [j.a, j.b] else [j.b, j.a]) := by
  rw [result, Node.join, h.levels_sub, Node.join.go, if_neg hne]

/-- Calls that fit are made down to the last level at most. -/
theorem induct {motive : ∀ j : Joining K V, j.Fits → Prop}
    (fork : ∀ j h, chunk j.aHash j.depth ≠ chunk j.bHash j.depth → motive j h)
    (link : ∀ j h, (heq : chunk j.aHash j.depth = chunk j.bHash j.depth) →
      motive j.deeper (h.deeper heq) → motive j h) (h : j.Fits) : motive j h := by
  generalize hleft : levels - j.depth = left
  induction left generalizing j with
  | zero =>
    have := h.depth_lt
    omega
  | succ left ih =>
    by_cases heq : chunk j.aHash j.depth = chunk j.bHash j.depth
    · refine link j h heq (ih (h.deeper heq) ?_)
      change levels - (j.depth + 1) = left
      omega
    · exact fork j h heq

/-- **A call ends at the last chunk at the latest**, and gives a chain with both nodes at its
end. -/
theorem exists_chain (h : j.Fits) :
    ∃ fork < levels, Chain j.a j.aHash j.b j.bHash j.depth fork j.result := by
  induction h using induct with
  | fork j h hne =>
    refine ⟨j.depth, h.depth_lt, ?_⟩
    rw [h.result_of_ne hne]
    rcases Nat.lt_or_gt_of_ne hne with hlt | hlt
    · rw [if_pos hlt]
      exact .first hlt
    · rw [if_neg (Nat.lt_asymm hlt)]
      exact .second hlt
  | link j h heq ih =>
    obtain ⟨fork, hfork, hchain⟩ := ih
    refine ⟨fork, hfork, ?_⟩
    rw [h.result_of_eq heq]
    exact .link heq hchain

/-- **Looking up below the result of a call** finds the entries of both nodes. -/
theorem find?_result [EquivBEq K] (h : j.Fits) {e : K × V} (he : e ∈ j.a.toList ++ j.b.toList) :
    j.result.find? (hash e.1) e.1 j.depth = some e.2 := by
  have hfind {n : Node K V} {nHash : UInt64} (hn : n.Along nHash) (he : e ∈ n.toList) :
      n.find? (hash e.1) e.1 j.depth = some e.2 := by
    have hmem := (hn.valid j.depth).find?_of_mem he
    rwa [length_route] at hmem
  have hnone {n : Node K V} {nHash : UInt64} (hn : n.Along nHash) (hne : hash e.1 ≠ nHash) :
      n.find? (hash e.1) e.1 j.depth = none := by
    by_contra hsome
    obtain ⟨v, hv⟩ := Option.ne_none_iff_exists'.1 hsome
    have hiff := (hn.valid j.depth).find?_eq_some_iff (h := hash e.1) (k := e.1) (v := v)
    rw [length_route] at hiff
    obtain ⟨e', he', hhash, -⟩ := hiff.1 hv
    exact hne (hhash.symm.trans (hn.hash_eq he'))
  have hlevels : j.depth + (levels - j.depth) = levels :=
    Nat.add_sub_of_le (Nat.le_of_lt h.depth_lt)
  rw [result, Node.join, Node.find?_join_go
    (fun d => Node.find?_depth h.along_a.isBranch_eq d j.depth) (hnone h.along_a)
    (fun d => Node.find?_depth h.along_b.isBranch_eq d j.depth) (hnone h.along_b) h.distinct _ _
    hlevels h.agree]
  rcases List.mem_append.1 he with he | he
  · rw [hfind h.along_a he, Option.some_or]
  · -- the first node holds another hash
    have hne : hash e.1 ≠ j.aHash := by
      rw [h.along_b.hash_eq he]
      exact h.distinct.symm
    rw [hnone h.along_a hne, hfind h.along_b he, Option.none_or]

/-- The branches of a result are the results of this call and of those that it makes in turn. -/
theorem exists_joins_of_at {h : UInt64} {key : K} {value : V} {d : Nat} {n : Node K V}
    {path : List Nat} {slots : Bitmap} {children : List (Node K V)} (hfits : j.Fits)
    (hj : n.Joins h key value d j) (hat : j.result.At path (.branch slots children)) :
    ∃ j', n.Joins h key value d j' ∧ j'.result = .branch slots children ∧
      route j.bHash j'.depth = route j.bHash j.depth ++ path := by
  induction hfits using induct generalizing path with
  | fork j hfits hne =>
    cases path with
    | nil => exact ⟨j, hj, (Node.eq_root_of_at_nil hat).symm, (List.append_nil _).symm⟩
    | cons i path =>
      -- below the fork there are two nodes, and neither is a branch
      rw [hfits.result_of_ne hne] at hat
      obtain ⟨_, _, m, heq, hm, hat⟩ := Node.exists_at_of_at_cons hat
      cases heq
      have hmem := Node.mem_of_child? hm
      have hab : m = j.a ∨ m = j.b := by
        split at hmem <;> simp only [List.mem_cons, List.not_mem_nil, or_false] at hmem
        · exact hmem
        · exact hmem.symm
      rcases hab with rfl | rfl
      · exact absurd hat (Node.not_at_branch hfits.along_a.isBranch_eq)
      · exact absurd hat (Node.not_at_branch hfits.along_b.isBranch_eq)
  | link j hfits heq ih =>
    cases path with
    | nil => exact ⟨j, hj, (Node.eq_root_of_at_nil hat).symm, (List.append_nil _).symm⟩
    | cons i path =>
      rw [hfits.result_of_eq heq] at hat
      obtain ⟨_, _, m, hbranch, hm, hat⟩ := Node.exists_at_of_at_cons hat
      cases hbranch
      rw [Node.child?_single (chunk_lt _ _)] at hm
      split at hm
      · next hi =>
        obtain rfl := Option.some.inj hm
        obtain ⟨j', hj', hresult, hroute⟩ := ih (hj.deeper heq) hat
        refine ⟨j', hj', hresult, hroute.trans ?_⟩
        change route j.bHash (j.depth + 1) ++ path = _
        rw [route_succ, List.append_assoc, List.singleton_append, hi, heq]
      · cases hm

end Fits

end Joining

/-! ### The calls of an insertion -/

namespace Node

variable {path : List Nat} {n : Node K V} {key : K} {value : V} {j : Joining K V}

/-- The arguments of every call fit. -/
theorem Valid.fits (hn : Valid path n) (hr : route (hash key) path.length = path)
    (hj : n.Joins (hash key) key value path.length j) : j.Fits ∧ j.bHash = hash key := by
  generalize hdepth : path.length = depth at hr hj
  induction hj generalizing path with
  | @leaf depth h k v hne =>
    cases hn with
    | leaf hash_eq on_route =>
      refine ⟨⟨hne, ?_, ⟨rfl, fun d => .leaf hash_eq (by rw [length_route])⟩,
        along_leaf key value⟩, rfl⟩
      rw [hdepth] at on_route
      exact on_route.trans hr.symm
  | @bucket depth h entries hne =>
    cases hn with
    | bucket several hash_eq distinct on_route =>
      refine ⟨⟨hne, ?_, ⟨rfl, fun d => .bucket several hash_eq distinct (by rw [length_route])⟩,
        along_leaf key value⟩, rfl⟩
      rw [hdepth] at on_route
      exact on_route.trans hr.symm
  | @descend depth slots children n j hc _ ih =>
    cases hn with
    | branch shallow card_eq nonempty only below =>
      refine ih (below _ n hc) ?_ ?_
      · rw [List.length_append, hdepth, List.length_singleton]
      · rw [route_succ, hr]
  | deeper _ heq ih =>
    obtain ⟨hfits, hhash⟩ := ih hn hdepth hr
    exact ⟨hfits.deeper heq, hhash⟩

/-- **What a call gives is in the trie afterwards**, at the end of the route of the key. -/
theorem Valid.at_insert (hn : Valid path n) (hr : route (hash key) path.length = path)
    (hj : n.Joins (hash key) key value path.length j) :
    ∃ rest, path ++ rest = route (hash key) j.depth ∧
      (n.insert (hash key) key value path.length).1.At rest j.result := by
  generalize hdepth : path.length = depth at hr hj
  induction hj generalizing path with
  | leaf hne | bucket hne =>
    refine ⟨[], (List.append_nil _).trans hr.symm, ?_⟩
    rw [Node.insert, if_neg hne]
    exact .root
  | @descend depth slots children n j hc _ ih =>
    cases hn with
    | branch shallow card_eq nonempty only below =>
      obtain ⟨rest, hrest, hat⟩ := ih (below _ n hc)
        (by rw [List.length_append, hdepth, List.length_singleton]) (by rw [route_succ, hr])
      refine ⟨chunk (hash key) depth :: rest, by rw [← hrest, List.append_assoc]; rfl, ?_⟩
      rw [insert_branch_of_some hc]
      refine .cons ?_ hat
      rw [child?_set (has_of_child? hc) (rank_lt_length hc), if_pos rfl]
  | @deeper depth n j hj heq ih =>
    obtain ⟨rest, hrest, hat⟩ := ih hn hdepth hr
    subst hdepth
    obtain ⟨hfits, hhash⟩ := hn.fits hr hj
    refine ⟨rest ++ [chunk j.aHash j.depth], ?_, ?_⟩
    · rw [← List.append_assoc, hrest, heq, hhash, ← route_succ]
      rfl
    · rw [hfits.result_of_eq heq] at hat
      refine hat.child ?_
      rw [child?_single (chunk_lt _ _), if_pos rfl]

/-- **New branches are what calls give.** -/
theorem Valid.branch_of_at_insert (hn : Valid path n) (hr : route (hash key) path.length = path)
    {rest : List Nat} {slots : Bitmap} {children : List (Node K V)}
    (hat : (n.insert (hash key) key value path.length).1.At rest (.branch slots children)) :
    (∃ slots' children', n.At rest (.branch slots' children')) ∨
      ∃ j, n.Joins (hash key) key value path.length j ∧ j.result = .branch slots children ∧
        route (hash key) j.depth = path ++ rest := by
  -- the branches of a join, given the call for it
  have hcall {path rest : List Nat} {n : Node K V} {j : Joining K V} (hn : Valid path n)
      (hr : route (hash key) path.length = path)
      (hj : n.Joins (hash key) key value path.length j) (hdepth : j.depth = path.length)
      (hat : j.result.At rest (.branch slots children)) :
      ∃ j, n.Joins (hash key) key value path.length j ∧ j.result = .branch slots children ∧
        route (hash key) j.depth = path ++ rest := by
    obtain ⟨hfits, hhash⟩ := hn.fits hr hj
    obtain ⟨j', hj', hresult, hroute⟩ := hfits.exists_joins_of_at hj hat
    rw [hhash, hdepth, hr] at hroute
    exact ⟨j', hj', hresult, hroute⟩
  induction hn generalizing rest with
  | @leaf path h k v hash_eq on_route =>
    rw [Node.insert] at hat
    split_ifs at hat with hh hk
    · exact absurd hat (not_at_branch rfl)
    · exact absurd hat (not_at_branch rfl)
    · exact Or.inr (hcall (.leaf hash_eq on_route) hr (.leaf hh) rfl hat)
  | @bucket path h entries several hash_eq distinct on_route =>
    rw [Node.insert] at hat
    split_ifs at hat with hh
    · exact absurd hat (not_at_branch rfl)
    · exact Or.inr (hcall (.bucket several hash_eq distinct on_route) hr (.bucket hh) rfl hat)
  | @branch path slots' children' shallow card_eq nonempty only below ih =>
    cases rest with
    | nil => exact Or.inl ⟨slots', children', .root⟩
    | cons i rest =>
      cases hc : child? slots' children' (chunk (hash key) path.length) with
      | none =>
        -- a leaf was put into a free slot
        obtain ⟨hno, heq⟩ := insert_branch_of_none key value card_eq hc
        rw [heq] at hat
        obtain ⟨_, _, m, hbranch, hm, hat⟩ := exists_at_of_at_cons hat
        cases hbranch
        rw [child?_insertIdx (chunk_lt _ _) hno card_eq] at hm
        split_ifs at hm
        · obtain rfl := Option.some.inj hm
          exact absurd hat (not_at_branch rfl)
        · exact Or.inl ⟨_, _, .cons hm hat⟩
      | some n =>
        rw [insert_branch_of_some hc] at hat
        obtain ⟨_, _, m, hbranch, hm, hat⟩ := exists_at_of_at_cons hat
        cases hbranch
        rw [child?_set (has_of_child? hc) (rank_lt_length hc)] at hm
        split_ifs at hm with hi
        · obtain rfl := Option.some.inj hm
          have hdepth : (path ++ [chunk (hash key) path.length]).length = path.length + 1 := by
            rw [List.length_append, List.length_singleton]
          rw [← hdepth] at hat
          rcases ih _ n hc (by rw [hdepth, route_succ, hr]) hat with
            ⟨slots₁, children₁, hold⟩ | ⟨j, hj, hresult, hroute⟩
          · rw [hi]
            exact Or.inl ⟨slots₁, children₁, .cons hc hold⟩
          · rw [hdepth] at hj
            refine Or.inr ⟨j, .descend hc hj, hresult, ?_⟩
            rw [hroute, hi, List.append_assoc]
            rfl
        · exact Or.inl ⟨_, _, .cons hm hat⟩

end Node

/-! ### All calls -/

/-- A call for a join that ends with the right answer. -/
structure Joining.Settles (j : Joining K V) : Prop where
  /-- The hashes differ. -/
  distinct : j.aHash ≠ j.bHash
  /-- They agree on all chunks above the depth of the call. -/
  agree : ∀ d < j.depth, chunk j.aHash d = chunk j.bHash d
  /-- The chunk that the call looks at begins at bit 60 of the hashes at the latest. -/
  shallow : 5 * j.depth ≤ 60
  /-- The answer is a chain that ends there at the latest. -/
  splits : ∃ fork, 5 * fork ≤ 60 ∧ Chain j.a j.aHash j.b j.bHash j.depth fork j.result
  /-- Looking up at that depth finds every entry of both nodes. -/
  finds : ∀ e ∈ j.a.toList ++ j.b.toList, j.result.find? (hash e.1) e.1 j.depth = some e.2

theorem Joining.Fits.settles [EquivBEq K] {j : Joining K V} (h : j.Fits) : j.Settles := by
  have hlevels : levels = 13 := rfl
  obtain ⟨fork, hfork, hchain⟩ := h.exists_chain
  have hdepth := h.depth_lt
  exact ⟨h.distinct, route_eq_iff.1 h.agree, by omega, ⟨fork, by omega, hchain⟩,
    fun e he => h.find?_result he⟩

/-- **Splitting always ends.**  After any history of updates, and whatever the hash function, every
call for a join that binding a further key makes ends with the right answer, which is in the trie
afterwards; and every branch that was not there before is the answer to such a call. -/
theorem replay_joins [EquivBEq K] (history : List (Update K V)) (key : K) (value : V) :
    (∀ j, (replay history).Joins key value j →
      j.Settles ∧ ∃ root, ((replay history).insert key value).root = some root ∧
        root.At (route (hash key) j.depth) j.result) ∧
    ∀ root path slots children, ((replay history).insert key value).root = some root →
      root.At path (.branch slots children) →
      (∃ old slots' children', (replay history).root = some old ∧
        old.At path (.branch slots' children')) ∨
      ∃ j, (replay history).Joins key value j ∧ path = route (hash key) j.depth ∧
        j.result = .branch slots children := by
  have hvalid := valid_replay history
  constructor
  · rintro j ⟨root, hroot, hj⟩
    have hroot' : ((replay history).insert key value).root =
        some (root.insert (hash key) key value 0).1 := by
      rw [insert, hroot]
    obtain ⟨rest, hrest, hat⟩ := (hvalid root hroot).at_insert rfl hj
    rw [List.nil_append] at hrest
    rw [hrest] at hat
    exact ⟨((hvalid root hroot).fits rfl hj).1.settles, _, hroot', hat⟩
  · intro root path slots children hroot hat
    cases hold : (replay history).root with
    | none =>
      -- the first key makes a leaf
      rw [insert, hold] at hroot
      obtain rfl := Option.some.inj hroot
      exact absurd hat (Node.not_at_branch rfl)
    | some old =>
      rw [insert, hold] at hroot
      obtain rfl := Option.some.inj hroot
      rcases (hvalid old hold).branch_of_at_insert rfl hat with
        ⟨slots', children', hbefore⟩ | ⟨j, hj, hresult, hroute⟩
      · exact Or.inl ⟨old, slots', children', rfl, hbefore⟩
      · exact Or.inr ⟨j, ⟨old, hold, hj⟩, hroute.symm, hresult⟩

/-- The second call for a bucket and a leaf whose hashes share their first chunk. -/
def labelledJoining : Joining Labelled Nat :=
  ⟨1, .bucket 5 [(⟨1, 0⟩, 10), (⟨2, 0⟩, 20)], 5, .leaf 37 ⟨3, 0⟩ 30, 37⟩

theorem labelledJoining_settles :
    (replay (labelledHistory.take 2)).Joins ⟨3, 0⟩ 30 labelledJoining ∧
      labelledJoining.Settles ∧ labelledJoining.result = labelledFork := by
  have hjoins : (replay (labelledHistory.take 2)).Joins ⟨3, 0⟩ 30 labelledJoining :=
    ⟨_, rfl, .deeper (.bucket (by decide)) rfl⟩
  exact ⟨hjoins, ((replay_joins (labelledHistory.take 2) ⟨3, 0⟩ 30).1 _ hjoins).1, rfl⟩

end HashTrie

end TraceOpt
