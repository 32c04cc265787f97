import Mathlib.Data.List.Perm.Basic
import TraceOpt.Trace.Document
import TraceOpt.Proofs.Json.Text

/-!
# The layouts of a trace

A trace can be laid out in many ways: the members of its object and of the objects of its
operations come in any order, beside members with other names, and a member with a default may be
left out.  `Trace.Layout` says which values lay out a trace, and the texts of such a value are
those of `Json.Text`.  The other members may have any values, but their names must be texts.

* `fields?_eq`: the members of an object are found in any order and beside others.
* `fields?_nameless`: an object is refused if the name of a member is no text.
* `Trace.parse?_of_layout`: **every text of every layout of a trace is read as that trace.**
* `nameless_refused`: a text is refused for the name of a member that is not needed.
-/

namespace TraceOpt

open List (Forall₂)

namespace Json

/-! ### Layouts of an object -/

/-- The objects with the given fields and with further members, in any order.  The name of a further
member is an allowed one that is no name of a field, and its value is any value. -/
inductive IsObject (allowed : Option String → Prop) (names : List String)
    (fields : List (String × Json)) : Json → Prop
  | mk {extra members : List (Option String × Json)}
      (hextra : ∀ m ∈ extra, allowed m.1 ∧ ∀ name ∈ names, m.1 ≠ some name)
      (hmembers : members.Perm (fields.map (fun m => (some m.1, m.2)) ++ extra)) :
      IsObject allowed names fields (.object members)

/-- The field of an object with a name and a value, which may be left out on a condition. -/
inductive IsField (name : String) (value : Json) (omissible : Prop) : List (String × Json) → Prop
  | given : IsField name value omissible [(name, value)]
  | omitted (h : omissible) : IsField name value omissible []

end Json

/-- The values that lay out an operation, with further members of allowed names. -/
inductive Operation.Layout (allowed : Option String → Prop) (op : Operation) : Json → Prop
  | mk {args type : List (String × Json)} {j : Json}
      (hargs : Json.IsField "args" (.array (op.args.map Operand.toJson)) (op.args = []) args)
      (htype : Json.IsField "type" (ResultType.toJson op.type) (op.type = none) type)
      (hj : Json.IsObject allowed ["id", "kind", "args", "type"]
        ([("id", .integer op.id.toNat), ("kind", .string (some op.kind.tag))] ++ args ++ type) j) :
      Operation.Layout allowed op j

/-- The values that lay out a trace, with further members of allowed names in its object and in
those of its operations. -/
inductive Trace.Layout (allowed : Option String → Prop) (t : Trace) : Json → Prop
  | mk {inputs : List (String × Json)} {ops : List Json} {j : Json}
      (hinputs : Json.IsField "inputs" (.integer t.inputs.toNat) (t.inputs = 0) inputs)
      (hops : Forall₂ (Operation.Layout allowed) t.ops ops)
      (hj : Json.IsObject allowed ["inputs", "ops"] (inputs ++ [("ops", .array ops)]) j) :
      Trace.Layout allowed t j

/-! ### Finding fields -/

section

variable {α β : Type} {f : β → Option α}

theorem mapM_eq_some {as : List α} {bs : List β} (h : Forall₂ (fun a b => f b = some a) as bs) :
    bs.mapM f = some as := by
  induction h with
  | nil => rfl
  | cons hb _ ih => simp [hb, ih]

theorem mapM_eq_filterMap {bs : List β} (h : ∀ b ∈ bs, (f b).isSome) :
    bs.mapM f = some (bs.filterMap f) := by
  induction bs with
  | nil => rfl
  | cons b bs ih =>
    obtain ⟨hb, hbs⟩ := List.forall_mem_cons.1 h
    obtain ⟨a, ha⟩ := Option.isSome_iff_exists.1 hb
    simp [ha, ih hbs]

theorem mapM_eq_none {b : β} {bs : List β} (hb : b ∈ bs) (h : f b = none) : bs.mapM f = none := by
  induction bs with
  | nil => cases hb
  | cons b' bs ih =>
    rw [List.mapM_cons]
    rcases List.mem_cons.1 hb with rfl | hmem
    · rw [h]
      rfl
    · rw [ih hmem]
      cases f b' <;> rfl

end

namespace Json

variable {names : List String} {fields : List (String × Json)}
  {extra members : List (Option String × Json)} {name : String}

/-- A field is the only one with its name. -/
theorem filter_name (hfields : (fields.map Prod.fst).Nodup) :
    fields.filter (·.1 == name) = ((fields.lookup name).map (name, ·)).toList := by
  induction fields with
  | nil => rfl
  | cons m fields ih =>
    obtain ⟨k, v⟩ := m
    obtain ⟨hk, hfields⟩ := List.nodup_cons.1 hfields
    by_cases hname : name = k
    · subst hname
      have hnone : fields.filter (·.1 == name) = [] := by
        rw [List.filter_eq_nil_iff]
        intro m hm heq
        exact hk (List.mem_map.2 ⟨m, hm, by simpa using heq⟩)
      simp [hnone]
    · have hne : (k == name) = false := by simpa using Ne.symm hname
      have hne' : (name == k) = false := by simpa using hname
      simp [List.lookup_cons, hne, hne', ih hfields]

/-- **The fields of an object are found in any order and beside other members.** -/
theorem fields?_eq (hfields : (fields.map Prod.fst).Nodup)
    (hextra : ∀ m ∈ extra, m.1.isSome ∧ ∀ name ∈ names, m.1 ≠ some name)
    (hmembers : members.Perm (fields.map (fun m => (some m.1, m.2)) ++ extra)) :
    fields? names members = some (names.map (fields.lookup ·)) := by
  have hnamed : ∀ m ∈ members, (m.1.map (·, m.2)).isSome := by
    intro m hm
    rw [Option.isSome_map]
    rcases List.mem_append.1 (hmembers.mem_iff.1 hm) with hm | hm
    · obtain ⟨field, -, rfl⟩ := List.mem_map.1 hm
      rfl
    · exact (hextra m hm).1
  rw [fields?, mapM_eq_filterMap hnamed]
  apply mapM_eq_some
  rw [List.forall₂_map_left_iff, List.forall₂_same]
  intro name hname
  have hgiven : (fields.map fun m => (some m.1, m.2)).filterMap (fun m => m.1.map (·, m.2)) =
      fields := by
    simp [List.filterMap_map]
  have hnone : (extra.filterMap fun m => m.1.map (·, m.2)).filter (·.1 == name) = [] := by
    rw [List.filter_eq_nil_iff]
    intro m hm heq
    obtain ⟨e, he, hem⟩ := List.mem_filterMap.1 hm
    obtain ⟨k, hk, rfl⟩ := Option.map_eq_some_iff.1 hem
    have hkey : k = name := eq_of_beq heq
    exact (hextra e he).2 name hname (by rw [hk, hkey])
  -- the members with the name are those among the fields, of which there is at most one
  have hperm := (hmembers.filterMap fun m => m.1.map (·, m.2)).filter (·.1 == name)
  rw [List.filterMap_append, List.filter_append, hgiven, hnone, List.append_nil,
    filter_name hfields] at hperm
  cases hvalue : fields.lookup name with
  | none =>
    rw [hvalue] at hperm
    rw [List.perm_nil.1 hperm]
  | some v =>
    rw [hvalue] at hperm
    rw [List.perm_singleton.1 hperm]

/-- An object is refused if the name of a member is no text. -/
theorem fields?_nameless {v : Json} (h : (none, v) ∈ members) : fields? names members = none := by
  rw [fields?, mapM_eq_none h rfl]
  rfl

namespace IsField

variable {value default : Json} {omissible : Prop}

theorem sublist (h : IsField name value omissible fields) :
    (fields.map Prod.fst).Sublist [name] := by
  cases h with
  | given => exact .refl _
  | omitted => exact List.nil_sublist _

theorem lookup_of_ne (h : IsField name value omissible fields) {other : String}
    (hne : (other == name) = false) : fields.lookup other = none := by
  cases h with
  | given => simp [List.lookup_cons, hne]
  | omitted => rfl

/-- A field that is left out has its default value. -/
theorem getD_lookup (h : IsField name value omissible fields)
    (hdefault : omissible → value = default) : (fields.lookup name).getD default = value := by
  cases h with
  | given => simp
  | omitted h => exact (hdefault h).symm

end IsField

/-! ### Reading values -/

@[simp]
theorem word?_toNat (n : UInt32) : (integer n.toNat).word? = some n := by
  have hlt : (n.toNat : Int) < UInt32.size := by exact_mod_cast n.toNat_lt_size
  rw [word?, if_pos ⟨Int.natCast_nonneg _, hlt⟩, Int.toNat_natCast, UInt32.ofNat_toNat]

@[simp]
theorem int64?_toInt (n : Int64) : (integer n.toInt).int64? = some n := by
  have hle := n.minValue_le_toInt
  have hge := n.toInt_le
  rw [int64?, if_pos ⟨hle, hge⟩, Int64.ofInt_toInt]

end Json

@[simp]
theorem Kind.ofTag?_tag (k : Kind) : Kind.ofTag? k.tag = some k := by
  cases k <;> decide

@[simp]
theorem ResultType.ofJson?_toJson (type : Option ResultType) :
    ResultType.ofJson? (ResultType.toJson type) = some type := by
  cases type with
  | none => rfl
  | some type => cases type <;> rfl

@[simp]
theorem Operand.ofJson?_toJson (x : Operand) : Operand.ofJson? x.toJson = some x := by
  cases x <;> simp [Operand.toJson, Operand.ofJson?]

theorem mapM_operands (xs : List Operand) :
    (xs.map Operand.toJson).mapM Operand.ofJson? = some xs := by
  apply mapM_eq_some
  rw [List.forall₂_map_right_iff, List.forall₂_same]
  intro x _
  exact x.ofJson?_toJson

theorem Operation.ofFields?_eq {op : Operation} {args type : Option Json}
    (hargs : args.getD (.array []) = .array (op.args.map Operand.toJson))
    (htype : type.getD .null = ResultType.toJson op.type) :
    Operation.ofFields? (.integer op.id.toNat) (.string (some op.kind.tag)) args type =
      some op := by
  simp [Operation.ofFields?, hargs, htype, Json.elements?, Json.variant?, mapM_operands,
    -List.mapM_map]

theorem Operation.ofJson?_object {id kind : Json} {args type : Option Json}
    {members : List (Option String × Json)}
    (h : Json.fields? ["id", "kind", "args", "type"] members =
      some [some id, some kind, args, type]) :
    Operation.ofJson? (.object members) = Operation.ofFields? id kind args type := by
  rw [Operation.ofJson?, h]
  rfl

/-- Every layout of an operation is read as that operation. -/
theorem Operation.Layout.ofJson? {op : Operation} {j : Json} (h : op.Layout (·.isSome) j) :
    Operation.ofJson? j = some op := by
  obtain @⟨args, type, j, hargs, htype, @⟨extra, members, hextra, hmembers⟩⟩ := h
  have hnodup : (([("id", .integer op.id.toNat), ("kind", .string (some op.kind.tag))] ++ args ++
      type : List (String × Json)).map Prod.fst).Nodup := by
    have hnames : ["id", "kind", "args", "type"].Nodup := by decide
    refine hnames.sublist ?_
    rw [List.map_append, List.map_append]
    exact ((List.Sublist.refl _).append hargs.sublist).append htype.sublist
  have htype' : type.lookup "args" = none := htype.lookup_of_ne (by decide)
  have hargs' : args.lookup "type" = none := hargs.lookup_of_ne (by decide)
  have hfields := Json.fields?_eq hnodup hextra hmembers
  simp only [List.cons_append, List.nil_append, List.lookup_cons, List.lookup_append,
    List.map_cons, List.map_nil, BEq.rfl, String.reduceBEq, htype', hargs', Option.or_none,
    Option.none_or] at hfields
  rw [Operation.ofJson?_object hfields]
  exact Operation.ofFields?_eq
    (hargs.getD_lookup fun hempty => by rw [hempty, List.map_nil])
    (htype.getD_lookup fun hnone => by rw [hnone, ResultType.toJson])

theorem Trace.ofJson?_object {ops : Json} {inputs : Option Json}
    {members : List (Option String × Json)}
    (h : Json.fields? ["inputs", "ops"] members = some [inputs, some ops]) :
    Trace.ofJson? (.object members) = Trace.ofFields? inputs ops := by
  rw [Trace.ofJson?, h]
  rfl

/-- Every layout of a trace is read as that trace. -/
theorem Trace.Layout.ofJson? {t : Trace} {j : Json} (h : t.Layout (·.isSome) j) :
    Trace.ofJson? j = some t := by
  obtain @⟨inputs, ops, j, hinputs, hops, @⟨extra, members, hextra, hmembers⟩⟩ := h
  have hnodup : ((inputs ++ [("ops", .array ops)] : List (String × Json)).map Prod.fst).Nodup := by
    have hnames : ["inputs", "ops"].Nodup := by decide
    refine hnames.sublist ?_
    rw [List.map_append]
    exact hinputs.sublist.append (.refl _)
  have hinputs' : inputs.lookup "ops" = none := hinputs.lookup_of_ne (by decide)
  have hfields := Json.fields?_eq hnodup hextra hmembers
  simp only [List.lookup_nil, List.lookup_cons, List.lookup_append, List.map_cons, List.map_nil,
    BEq.rfl, String.reduceBEq, hinputs', Option.or_none, Option.or_some, Option.getD_none]
    at hfields
  have hvalue : (inputs.lookup "inputs").getD (.integer 0) = .integer t.inputs.toNat :=
    hinputs.getD_lookup fun hzero => by simp [hzero]
  have hread : ops.mapM Operation.ofJson? = some t.ops :=
    mapM_eq_some (hops.imp fun op j h => h.ofJson?)
  rw [Trace.ofJson?_object hfields]
  simp [Trace.ofFields?, hvalue, Json.elements?, hread]

/-! ### Written traces -/

theorem Operation.layout_toJson (allowed : Option String → Prop) (op : Operation) :
    op.Layout allowed op.toJson :=
  .mk .given .given (.mk (List.forall_mem_nil _) (.refl _))

theorem Trace.layout_toJson (allowed : Option String → Prop) (t : Trace) :
    t.Layout allowed t.toJson := by
  have hops : Forall₂ (Operation.Layout allowed) t.ops (t.ops.map Operation.toJson) := by
    rw [List.forall₂_map_right_iff, List.forall₂_same]
    intro op _
    exact op.layout_toJson allowed
  exact .mk .given hops (.mk (List.forall_mem_nil _) (.refl _))

theorem Operand.writes_toJson (x : Operand) : x.toJson.Writes := by
  cases x <;> exact Json.writes_object (by simp [Json.writes_integer])

theorem ResultType.writes_toJson (type : Option ResultType) : (ResultType.toJson type).Writes := by
  cases type with
  | none => exact Json.writes_null
  | some type => exact Json.writes_string _

theorem Operation.writes_toJson (op : Operation) : op.toJson.Writes := by
  have hargs : (Json.array (op.args.map Operand.toJson)).Writes :=
    Json.writes_array (List.forall_mem_map.2 fun x _ => x.writes_toJson)
  apply Json.writes_object
  simp [Json.writes_integer, Json.writes_string, hargs, ResultType.writes_toJson]

theorem Trace.writes_toJson (t : Trace) : t.toJson.Writes := by
  have hops : (Json.array (t.ops.map Operation.toJson)).Writes :=
    Json.writes_array (List.forall_mem_map.2 fun op _ => op.writes_toJson)
  apply Json.writes_object
  simp [Json.writes_integer, hops]

/-- **Reading a trace undoes writing it, whatever the layout**, if the names of all members are
texts. -/
theorem Trace.parse?_of_layout (t : Trace) :
    (∀ j text, t.Layout (·.isSome) j → Json.Text j.tokens text.toList →
        Trace.parse? text = some t) ∧
      Trace.parse? t.toJson.compact = some t := by
  have hread (j : Json) (text : String) (hj : t.Layout (·.isSome) j)
      (htext : Json.Text j.tokens text.toList) : Trace.parse? text = some t := by
    rw [Trace.parse?, Json.parse?_of_text htext]
    exact hj.ofJson?
  have hcompact := t.writes_toJson .compact Json.Layout.isBlank_compact 0
  exact ⟨hread, hread t.toJson t.toJson.compact (t.layout_toJson _) hcompact⟩

/-- A trace with the extreme numbers of every range. -/
def extremes : Trace :=
  ⟨0,
    [ ⟨.last, .setField, [.input 4294967295, .op 0, .const .minValue, .const .maxValue], none⟩,
      ⟨0, .call, [], some .ref⟩ ]⟩

/-- The trace in an unusual layout: members in reverse, others among them, defaults left out. -/
def extremesReversed : Json :=
  .object
    [ (some "note", .object [(none, .array [.null, .string none]), (some "ops", .integer (-1))]),
      (some "ops", .array
        [ .object
            [ (some "args", .array
                [ .object [(some "input", .integer 4294967295)],
                  .object [(some "op", .integer 0)],
                  .object [(some "const", .integer (-9223372036854775808))],
                  .object [(some "const", .integer 9223372036854775807)] ]),
              (some "kind", .string (some "set_field")),
              (some "id", .integer 4294967295) ],
          .object
            [ (some "inputs", .null),
              (some "inputs", .array []),
              (some "type", .string (some "ref")),
              (some "kind", .string (some "call")),
              (some "id", .integer 0) ] ]) ]

theorem layout_extremesReversed : extremes.Layout (·.isSome) extremesReversed := by
  have hset : Operation.Layout (·.isSome)
      ⟨.last, .setField, [.input 4294967295, .op 0, .const .minValue, .const .maxValue], none⟩ _ :=
    .mk .given (.omitted rfl) (.mk (List.forall_mem_nil _) (List.reverse_perm _))
  have hcallExtra : ∀ m ∈ [(some "inputs", Json.array []), (some "inputs", .null)],
      m.1.isSome ∧ ∀ name ∈ ["id", "kind", "args", "type"], m.1 ≠ some name := by simp
  have hcall : Operation.Layout (·.isSome) ⟨0, .call, [], some .ref⟩ _ :=
    .mk (.omitted rfl) .given (.mk hcallExtra (List.reverse_perm _))
  have hextra : ∀ m ∈ [(some "note", Json.object
        [(none, .array [.null, .string none]), (some "ops", .integer (-1))])],
      m.1.isSome ∧ ∀ name ∈ ["inputs", "ops"], m.1 ≠ some name := by simp
  have hlayout : extremes.Layout (·.isSome) _ :=
    .mk (.omitted rfl) (.cons hset (.cons hcall .nil)) (.mk hextra (List.reverse_perm _))
  exact hlayout

theorem writes_extremesReversed : extremesReversed.Writes := by
  unfold extremesReversed
  repeat' first
    | apply Json.writes_object
    | apply Json.writes_array
    | apply Json.writes_integer
    | apply Json.writes_string
    | apply Json.writes_null
    | apply List.forall_mem_nil
    | refine List.forall_mem_cons.2 ⟨?_, ?_⟩

/-- The unusual layout is read as the trace. -/
theorem extremes_read :
    extremes.Layout (·.isSome) extremesReversed ∧
      Json.Text extremesReversed.tokens extremesReversed.pretty.toList ∧
      Trace.parse? extremesReversed.pretty = some extremes := by
  have htext := writes_extremesReversed .pretty Json.Layout.isBlank_pretty 0
  exact ⟨layout_extremesReversed, htext,
    (Trace.parse?_of_layout extremes).1 _ _ layout_extremesReversed htext⟩

/-! ### A name that is no text -/

/-- The empty trace beside a member whose name is no text. -/
def nameless : Json := .object [(none, .integer 0), (some "ops", .array [])]

/-- **Names that are no texts are refused**: where they are allowed, a text of a layout need not be
read. -/
theorem nameless_refused :
    Trace.Layout (fun _ => True) ⟨0, []⟩ nameless ∧
      Json.Text nameless.tokens "\x7b\"\\ud800\":0,\"ops\":[]\x7d".toList ∧
      Trace.parse? "\x7b\"\\ud800\":0,\"ops\":[]\x7d" = none := by
  have hextra : ∀ m ∈ [(none, Json.integer 0)],
      True ∧ ∀ name ∈ ["inputs", "ops"], m.1 ≠ some name := by simp
  have hlayout : Trace.Layout (fun _ => True) ⟨0, []⟩ nameless :=
    .mk (.omitted rfl) .nil (.mk hextra (List.Perm.swap ..))
  have hwrites : nameless.Writes :=
    Json.writes_object (by simp [Json.writes_integer, Json.writes_array])
  have htext : Json.Text nameless.tokens "\x7b\"\\ud800\":0,\"ops\":[]\x7d".toList :=
    hwrites .compact Json.Layout.isBlank_compact 0
  refine ⟨hlayout, htext, ?_⟩
  rw [Trace.parse?, Json.parse?_of_text htext, Option.bind_some, nameless, Trace.ofJson?,
    Json.fields?_nameless List.mem_cons_self]
  rfl

end TraceOpt
