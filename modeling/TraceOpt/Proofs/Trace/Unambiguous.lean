import Mathlib.Data.List.Forall2
import TraceOpt.Proofs.Json.Spelling
import TraceOpt.Trace.Text

/-!
# What the text of a trace shows

The text of a trace can be read in one way only.  Ids, numbers and names are *words*: their signs
are never those that separate words, arguments or lines, so the first separator of each sort tells
where a part ends.

* `eq_of_intercalate_eq`: parts that are joined by a separator can be told apart again.
* `Operand.text_inj`: the text of an operand tells which operand it is.
* `Operation.text_eq_iff_looksLike`: what the line of an operation shows.
* `Trace.text_eq_iff`: two traces have the same text exactly if their operations look the same, one
  by one.  A text hides how many inputs there are, which type a result has, and the ids of
  operations without a result; it hides nothing else.
-/

namespace TraceOpt

/-! ### Parts of a text -/

section Parts

variable {c : Char} {a a' b b' p q sep : List Char} {ps qs : List (List Char)}

/-- The first time that a sign occurs cuts a text in two. -/
theorem eq_and_eq_of_append_cons_eq (ha : c ∉ a) (ha' : c ∉ a') (h : a ++ c :: b = a' ++ c :: b') :
    a = a' ∧ b = b' := by
  induction a generalizing a' with
  | nil =>
    cases a' with
    | nil => simpa using h
    | cons d a' =>
      obtain ⟨rfl, -⟩ := List.cons.inj h
      exact absurd List.mem_cons_self ha'
  | cons d a ih =>
    cases a' with
    | nil =>
      obtain ⟨rfl, -⟩ := List.cons.inj h
      exact absurd List.mem_cons_self ha
    | cons d' a' =>
      obtain ⟨rfl, htail⟩ := List.cons.inj h
      obtain ⟨rfl, rfl⟩ := ih (fun hc => ha (List.mem_cons_of_mem d hc))
        (fun hc => ha' (List.mem_cons_of_mem d hc)) htail
      exact ⟨rfl, rfl⟩

theorem intercalate_cons_eq_flatMap (sep p : List Char) (ps : List (List Char)) :
    sep.intercalate (p :: ps) = p ++ ps.flatMap (sep ++ ·) := by
  induction ps generalizing p with
  | nil => simp
  | cons q ps ih => rw [List.intercalate_cons_cons, ih, List.flatMap_cons, List.append_assoc,
      List.append_assoc]

theorem mem_intercalate (h : c ∈ sep.intercalate ps) : c ∈ sep ∨ ∃ p ∈ ps, c ∈ p := by
  cases ps with
  | nil => simp at h
  | cons p ps =>
    rw [intercalate_cons_eq_flatMap, List.mem_append, List.mem_flatMap] at h
    rcases h with hp | ⟨q, hq, hc⟩
    · exact Or.inr ⟨p, List.mem_cons_self, hp⟩
    · rcases List.mem_append.1 hc with hsep | hc
      · exact Or.inl hsep
      · exact Or.inr ⟨q, List.mem_cons_of_mem p hq, hc⟩

/-- Parts of which none contains the first sign of the separator. -/
theorem eq_of_append_flatMap_eq (hps : ∀ r ∈ p :: ps, c ∉ r) (hqs : ∀ r ∈ q :: qs, c ∉ r)
    (h : p ++ ps.flatMap (c :: sep ++ ·) = q ++ qs.flatMap (c :: sep ++ ·)) :
    p :: ps = q :: qs := by
  induction ps generalizing p q qs with
  | nil =>
    cases qs with
    | nil => simpa using h
    | cons q' qs =>
      -- only one of the texts goes on after its first part
      have hc : c ∈ p := by
        rw [List.flatMap_nil, List.append_nil] at h
        simp [h]
      exact absurd hc (hps p List.mem_cons_self)
  | cons p' ps ih =>
    cases qs with
    | nil =>
      have hc : c ∈ q := by
        rw [List.flatMap_nil, List.append_nil] at h
        simp [← h]
      exact absurd hc (hqs q List.mem_cons_self)
    | cons q' qs =>
      simp only [List.flatMap_cons, List.cons_append, List.append_assoc] at h
      obtain ⟨rfl, htail⟩ := eq_and_eq_of_append_cons_eq (hps p List.mem_cons_self)
        (hqs q List.mem_cons_self) h
      rw [ih (List.forall_mem_cons.1 hps).2 (List.forall_mem_cons.1 hqs).2
        (List.append_cancel_left htail)]

/-- **Parts that are joined by a separator can be told apart again**, if none of them is empty or
contains the first sign of the separator. -/
theorem eq_of_intercalate_eq (hps : ∀ r ∈ ps, r ≠ [] ∧ c ∉ r) (hqs : ∀ r ∈ qs, r ≠ [] ∧ c ∉ r)
    (h : (c :: sep).intercalate ps = (c :: sep).intercalate qs) : ps = qs := by
  cases ps with
  | nil =>
    cases qs with
    | nil => rfl
    | cons q qs =>
      rw [List.intercalate_nil, intercalate_cons_eq_flatMap, eq_comm, List.append_eq_nil_iff] at h
      exact absurd h.1 (hqs q List.mem_cons_self).1
  | cons p ps =>
    cases qs with
    | nil =>
      rw [List.intercalate_nil, intercalate_cons_eq_flatMap, List.append_eq_nil_iff] at h
      exact absurd h.1 (hps p List.mem_cons_self).1
    | cons q qs =>
      rw [intercalate_cons_eq_flatMap, intercalate_cons_eq_flatMap] at h
      exact eq_of_append_flatMap_eq (fun r hr => (hps r hr).2) (fun r hr => (hqs r hr).2) h

end Parts

/-! ### Words -/

/-- The signs of which ids, numbers and names are made. -/
def isWordSign (c : Char) : Bool := c.isAlphanum || c == '%' || c == '-' || c == '_'

/-- A text without separators. -/
def IsWord (w : List Char) : Prop := ∀ c ∈ w, isWordSign c = true

instance (w : List Char) : Decidable (IsWord w) :=
  decidable_of_iff (w.all isWordSign = true) List.all_eq_true

theorem IsWord.notMem {w : List Char} (h : IsWord w) {c : Char} (hc : isWordSign c = false) :
    c ∉ w := by
  intro hmem
  rw [h c hmem] at hc
  cases hc

theorem isWord_toDigits (n : Nat) : IsWord (Nat.toDigits 10 n) := by
  intro c hc
  have hdigit := Nat.isDigit_of_mem_toDigits (by decide) (Nat.le_refl 10) hc
  simp [isWordSign, Char.isAlphanum, hdigit]

theorem toDigits_inj {m n : Nat} (h : Nat.toDigits 10 m = Nat.toDigits 10 n) : m = n := by
  rw [← Nat.ofDigitChars_ten_toDigits (n := m), h, Nat.ofDigitChars_ten_toDigits]

theorem IsWord.cons {w : List Char} (h : IsWord w) {c : Char} (hc : isWordSign c = true) :
    IsWord (c :: w) :=
  List.forall_mem_cons.2 ⟨hc, h⟩

theorem Kind.isWord_text (k : Kind) : IsWord k.text.toList := by
  cases k <;> decide

theorem Kind.text_inj {k k' : Kind} (h : k.text = k'.text) : k = k' := by
  revert h
  cases k <;> cases k' <;> decide

theorem Kind.head?_text (k : Kind) : k.text.toList.head? ≠ some '%' := by
  cases k <;> decide

theorem OpId.toList_text (id : OpId) : id.text.toList = '%' :: Nat.toDigits 10 id.toNat := by
  simp [OpId.text]

theorem OpId.isWord_text (id : OpId) : IsWord id.text.toList := by
  rw [OpId.toList_text]
  exact (isWord_toDigits _).cons rfl

theorem OpId.text_inj {id id' : OpId} (h : id.text = id'.text) : id = id' := by
  rw [← String.toList_inj, toList_text, toList_text] at h
  exact UInt32.toNat_inj.1 (toDigits_inj (List.cons.inj h).2)

/-! ### Operands -/

namespace Operand

theorem toList_text_input (n : UInt32) :
    (input n).text.toList = 'i' :: Nat.toDigits 10 n.toNat := by
  simp [text]

theorem isWord_text (x : Operand) : IsWord x.text.toList := by
  cases x with
  | input n =>
    rw [toList_text_input]
    exact (isWord_toDigits _).cons rfl
  | op id => exact id.isWord_text
  | const n =>
    rw [text, Json.toList_repr]
    split
    · exact isWord_toDigits _
    · exact (isWord_toDigits _).cons rfl

/-- The first sign of a literal is a digit or a minus. -/
theorem head?_const (n : Int64) :
    ∃ c, (const n).text.toList.head? = some c ∧ (c.isDigit = true ∨ c = '-') := by
  rw [text, Json.toList_repr]
  split
  · have hne : Nat.toDigits 10 n.toInt.natAbs ≠ [] := Nat.toDigits_ne_nil
    obtain ⟨d, ds, hcons⟩ := List.exists_cons_of_ne_nil hne
    have hd : d ∈ Nat.toDigits 10 n.toInt.natAbs := by simp [hcons]
    refine ⟨d, by simp [hcons], Or.inl ?_⟩
    exact Nat.isDigit_of_mem_toDigits (by decide) (Nat.le_refl 10) hd
  · exact ⟨'-', rfl, Or.inr rfl⟩

theorem text_ne_nil (x : Operand) : x.text.toList ≠ [] := by
  cases x with
  | input n => simp [text]
  | op id => simp [text, OpId.text]
  | const n =>
    obtain ⟨c, hc, -⟩ := head?_const n
    intro hnil
    rw [hnil] at hc
    cases hc

/-- **The text of an operand tells which it is**: inputs, results and literals begin with different
signs. -/
theorem text_inj {x y : Operand} (h : x.text = y.text) : x = y := by
  have hhead : x.text.toList.head? = y.text.toList.head? := by rw [h]
  have hinput (n : UInt32) : (input n).text.toList.head? = some 'i' := by
    rw [toList_text_input, List.head?_cons]
  have hop (id : OpId) : (op id).text.toList.head? = some '%' := by
    rw [text, OpId.toList_text, List.head?_cons]
  have hconst (n : Int64) : (const n).text.toList.head? ≠ some 'i' ∧
      (const n).text.toList.head? ≠ some '%' := by
    obtain ⟨c, hc, hsign⟩ := head?_const n
    rw [hc]
    constructor <;> rintro ⟨⟩ <;> exact absurd hsign (by decide)
  cases x <;> cases y
  case input.input m n =>
    rw [← String.toList_inj, toList_text_input, toList_text_input] at h
    exact congrArg input (UInt32.toNat_inj.1 (toDigits_inj (List.cons.inj h).2))
  case op.op i j => exact congrArg op (OpId.text_inj h)
  case const.const m n =>
    -- a numeral reads back as its number
    have hend : Json.EndsNumber [] := fun c hc => nomatch hc
    have htext : m.toInt.repr = n.toInt.repr := h
    have hread := Json.number?_repr m.toInt hend
    rw [htext, Json.number?_repr n.toInt hend] at hread
    simp only [Option.some.injEq, Prod.mk.injEq, Json.integer.injEq, and_true] at hread
    exact congrArg const (Int64.toInt_inj.1 hread.symm)
  case input.op m i =>
    rw [hinput, hop] at hhead
    cases hhead
  case op.input i m =>
    rw [hinput, hop] at hhead
    cases hhead
  case input.const m n => exact absurd (hhead.symm.trans (hinput m)) (hconst n).1
  case const.input n m => exact absurd (hhead.trans (hinput m)) (hconst n).1
  case op.const i n => exact absurd (hhead.symm.trans (hop i)) (hconst n).2
  case const.op n i => exact absurd (hhead.trans (hop i)) (hconst n).2

end Operand

/-! ### Operations -/

namespace Operation

/-- Operations that look the same in a text: they agree in all but the type of their result, and in
their ids if they have one. -/
structure LooksLike (op op' : Operation) : Prop where
  kind : op.kind = op'.kind
  args : op.args = op'.args
  /-- Both leave a value behind or neither does. -/
  producesValue : op.producesValue = op'.producesValue
  id : op.producesValue = true → op.id = op'.id

variable {op op' : Operation}

/-- What stands before the arguments. -/
def heading (op : Operation) : List Char :=
  (if op.producesValue then op.id.text.toList ++ [' ', '=', ' '] else []) ++ op.kind.text.toList

/-- The arguments, joined by commas. -/
def argList (op : Operation) : List Char :=
  [',', ' '].intercalate (op.args.map fun x => x.text.toList)

theorem toList_text (op : Operation) :
    op.text.toList = op.heading ++ '(' :: (op.argList ++ [')']) := by
  rw [text, heading, argList]
  split <;> simp [String.toList_intercalate, Function.comp_def]

theorem mem_heading {c : Char} (h : c ∈ op.heading) :
    isWordSign c = true ∨ c = ' ' ∨ c = '=' := by
  rw [heading, List.mem_append] at h
  rcases h with h | h
  · split at h
    · rcases List.mem_append.1 h with h | h
      · exact Or.inl (op.id.isWord_text c h)
      · simp only [List.mem_cons, List.not_mem_nil, or_false] at h
        rcases h with h | h | h <;> simp [h]
    · cases h
  · exact Or.inl (op.kind.isWord_text c h)

theorem mem_argList {c : Char} (h : c ∈ op.argList) : isWordSign c = true ∨ c = ',' ∨ c = ' ' := by
  rcases mem_intercalate h with h | ⟨p, hp, hc⟩
  · simp only [List.mem_cons, List.not_mem_nil, or_false] at h
    exact Or.inr h
  · obtain ⟨x, -, rfl⟩ := List.mem_map.1 hp
    exact Or.inl (x.isWord_text c hc)

/-- An operation takes one line. -/
theorem newline_notMem_text (op : Operation) : '\n' ∉ op.text.toList := by
  intro h
  rw [toList_text, List.mem_append, List.mem_cons, List.mem_append] at h
  rcases h with h | h | h | h
  · exact absurd (mem_heading h) (by decide)
  · exact absurd h (by decide)
  · exact absurd (mem_argList h) (by decide)
  · exact absurd h (by decide)

theorem text_ne_nil (op : Operation) : op.text.toList ≠ [] := by
  simp [toList_text]

/-- The part before the arguments tells the kind, and the id if it is there. -/
theorem of_heading_eq (h : op.heading = op'.heading) :
    op.kind = op'.kind ∧ op.producesValue = op'.producesValue ∧
      (op.producesValue = true → op.id = op'.id) := by
  -- an id begins with a sign with which no kind begins
  have hhead {op : Operation} : op.heading.head? = some '%' ↔ op.producesValue = true := by
    rw [heading]
    split
    · next hvalue => simp [hvalue, OpId.toList_text]
    · next hvalue => simpa [hvalue] using op.kind.head?_text
  have hvalue : op.producesValue = op'.producesValue := by
    rw [Bool.eq_iff_iff, ← hhead, ← hhead, h]
  rw [heading, heading, ← hvalue] at h
  split at h
  · have hspace : isWordSign ' ' = false := rfl
    simp only [List.append_assoc, List.cons_append, List.nil_append] at h
    obtain ⟨hid, hkind⟩ := eq_and_eq_of_append_cons_eq (op.id.isWord_text.notMem hspace)
      (op'.id.isWord_text.notMem hspace) h
    simp only [List.cons.injEq, true_and] at hkind
    exact ⟨Kind.text_inj (String.toList_inj.1 hkind), hvalue,
      fun _ => OpId.text_inj (String.toList_inj.1 hid)⟩
  · next hfalse =>
    exact ⟨Kind.text_inj (String.toList_inj.1 h), hvalue, fun htrue => absurd htrue hfalse⟩

theorem args_eq_of_argList_eq (h : op.argList = op'.argList) : op.args = op'.args := by
  have hpart (xs : List Operand) : ∀ p ∈ xs.map (fun x => x.text.toList), p ≠ [] ∧ ',' ∉ p := by
    intro p hp
    obtain ⟨x, -, rfl⟩ := List.mem_map.1 hp
    exact ⟨x.text_ne_nil, x.isWord_text.notMem rfl⟩
  have hmap := eq_of_intercalate_eq (hpart op.args) (hpart op'.args) h
  refine List.map_injective_iff.2 (fun x y hxy => ?_) hmap
  exact Operand.text_inj (String.toList_inj.1 hxy)

/-- **What the line of an operation shows.** -/
theorem text_eq_iff_looksLike : op.text = op'.text ↔ op.LooksLike op' := by
  constructor
  · intro h
    have hopen {op : Operation} : '(' ∉ op.heading := fun hmem =>
      absurd (mem_heading hmem) (by decide)
    rw [← String.toList_inj, toList_text, toList_text] at h
    obtain ⟨hheading, hrest⟩ := eq_and_eq_of_append_cons_eq hopen hopen h
    obtain ⟨hkind, hvalue, hid⟩ := of_heading_eq hheading
    exact ⟨hkind, args_eq_of_argList_eq (List.append_cancel_right hrest), hvalue, hid⟩
  · intro h
    rw [text, text, ← h.kind, ← h.args, ← h.producesValue]
    split
    · next hvalue => rw [h.id hvalue]
    · rfl

end Operation

/-! ### Traces -/

/-- **What the text of a trace shows.**  Two traces have the same text if and only if they have
equally many operations and these look the same, one by one. -/
theorem Trace.text_eq_iff (t t' : Trace) :
    t.text = t'.text ↔ List.Forall₂ Operation.LooksLike t.ops t'.ops := by
  have hlines (t : Trace) : t.text.toList = ['\n'].intercalate (t.ops.map (·.text.toList)) := by
    simp [text, String.toList_intercalate, Function.comp_def]
  have hpart (t : Trace) : ∀ p ∈ t.ops.map (·.text.toList), p ≠ [] ∧ '\n' ∉ p := by
    intro p hp
    obtain ⟨op, -, rfl⟩ := List.mem_map.1 hp
    exact ⟨op.text_ne_nil, op.newline_notMem_text⟩
  have hmap : t.text = t'.text ↔ t.ops.map Operation.text = t'.ops.map Operation.text := by
    constructor
    · intro h
      rw [← String.toList_inj, hlines, hlines] at h
      have hparts := eq_of_intercalate_eq (hpart t) (hpart t') h
      refine List.map_injective_iff.2 (fun a b hab => String.toList_inj.1 hab) ?_
      rwa [List.map_map, List.map_map]
    · intro h
      rw [text, text, h]
  rw [hmap, ← List.forall₂_eq_eq_eq, List.forall₂_map_left_iff, List.forall₂_map_right_iff]
  simp only [Operation.text_eq_iff_looksLike]

-- inputs, the ids of operations without a result, and their types do not show
example : (Trace.mk 0 [⟨7, .call, [.input 2, .const (-1)], none⟩]).text =
    (Trace.mk 3 [⟨8, .call, [.input 2, .const (-1)], some .void⟩]).text := by
  decide

end TraceOpt
