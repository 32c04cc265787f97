import Mathlib.Data.List.Chain
import Mathlib.Data.List.Forall2
import TraceOpt.Json.Reader
import TraceOpt.Json.Writer
import TraceOpt.Proofs.Json.Spelling

/-!
# The texts of a JSON value

`Json.tokens` lists the tokens of a value, and `Text` says which texts spell a list of tokens, with
blanks wherever tokens meet.  A text of a value is therefore any text of its tokens.

* `ofText?_of_text`: a text is cut into the tokens that it spells, if no two scalars meet.
* `foldlM_tokens`: the tokens of a value are read as that value.
* `parse?_of_text`: **every text of a value is read as that value.**
* `Writes`: a value that is written as one of its texts, whatever blanks a layout puts in.
-/

namespace TraceOpt

namespace Json

/-! ### Texts -/

/-- Lists of tokens with commas between them. -/
def separated : List (List Token) → List Token
  | [] => []
  | ts :: tss => ts ++ tss.flatMap (.comma :: ·)

mutual

/-- The tokens of a value. -/
def tokens : Json → List Token
  | string s => [.string s]
  | array es => .openBracket :: (separated (elementTokens es) ++ [.closeBracket])
  | object ms => .openBrace :: (separated (memberTokens ms) ++ [.closeBrace])
  | j => [.scalar j]

/-- The tokens of each element of an array. -/
def elementTokens : List Json → List (List Token)
  | [] => []
  | j :: rest => tokens j :: elementTokens rest

/-- The tokens of each member of an object. -/
def memberTokens : List (Option String × Json) → List (List Token)
  | [] => []
  | (k, j) :: rest => (.string k :: .colon :: tokens j) :: memberTokens rest

end

/-- Characters that may stand between tokens. -/
def Blank (cs : List Char) : Prop := ∀ c ∈ cs, Token.isBlank c = true

/-- The texts that spell tokens, with blanks before, between and after them. -/
inductive Text : List Token → List Char → Prop
  | nil {blanks : List Char} (hblanks : Blank blanks) : Text [] blanks
  | cons {t : Token} {ts : List Token} {blanks cs rest : List Char} (hblanks : Blank blanks)
      (ht : Spells t cs) (h : Text ts rest) : Text (t :: ts) (blanks ++ (cs ++ rest))

/-- Two tokens that may stand side by side without blanks. -/
def Apart (t u : Token) : Prop := (∀ j, t ≠ .scalar j) ∨ ∀ j, u ≠ .scalar j

/-! ### Values and their tokens -/

/-- What holds of a container if it holds of the values in it holds of every value. -/
theorem induction {P : Json → Prop} (null : P .null) (bool : ∀ b, P (.bool b))
    (integer : ∀ n, P (.integer n)) (real : ∀ s, P (.real s)) (string : ∀ s, P (.string s))
    (array : ∀ es, (∀ j ∈ es, P j) → P (.array es))
    (object : ∀ ms, (∀ m ∈ ms, P m.2) → P (.object ms)) : ∀ j, P j
  | .null => null
  | .bool b => bool b
  | .integer n => integer n
  | .real s => real s
  | .string s => string s
  | .array es => array es fun j _ => induction null bool integer real string array object j
  | .object ms => object ms fun (_, j) _ => induction null bool integer real string array object j
decreasing_by
  · next h =>
    have hlt := List.sizeOf_lt_of_mem h
    simp only [Json.array.sizeOf_spec]
    omega
  · next h =>
    have hlt := List.sizeOf_lt_of_mem h
    simp only [Prod.mk.sizeOf_spec, Json.object.sizeOf_spec] at hlt ⊢
    omega

@[simp]
theorem elementTokens_eq (es : List Json) : elementTokens es = es.map tokens := by
  induction es with
  | nil => rfl
  | cons j es ih => rw [elementTokens, ih, List.map_cons]

@[simp]
theorem memberTokens_eq (ms : List (Option String × Json)) :
    memberTokens ms = ms.map fun m => .string m.1 :: .colon :: tokens m.2 := by
  induction ms with
  | nil => rfl
  | cons m ms ih => rw [memberTokens, ih, List.map_cons]

section

variable {t : Token} {ts us : List Token} {blanks cs rest : List Char}

/-! ### Tokens apart -/

theorem isChain_cons (ht : ∀ j, t ≠ .scalar j) (hts : ts.IsChain Apart) :
    (t :: ts).IsChain Apart :=
  List.isChain_cons.2 ⟨fun _ _ => .inl ht, hts⟩

theorem isChain_append (hts : ts.IsChain Apart) (hus : us.IsChain Apart)
    (hhead : ∀ u ∈ us.head?, ∀ j, u ≠ .scalar j) : (ts ++ us).IsChain Apart :=
  hts.append hus fun _ _ u hu => .inr (hhead u hu)

theorem isChain_separated {tss : List (List Token)} (h : ∀ ts ∈ tss, ts.IsChain Apart) :
    (separated tss).IsChain Apart := by
  have hhead (tss : List (List Token)) :
      ∀ u ∈ (tss.flatMap (.comma :: ·)).head?, ∀ j, u ≠ .scalar j := by
    cases tss <;> simp
  have hcommas (tss : List (List Token)) (h : ∀ ts ∈ tss, ts.IsChain Apart) :
      (tss.flatMap (.comma :: ·)).IsChain Apart := by
    induction tss with
    | nil => exact .nil
    | cons ts tss ih =>
      rw [List.forall_mem_cons] at h
      exact isChain_append (isChain_cons (by simp) h.1) (ih h.2) (hhead tss)
  cases tss with
  | nil => exact .nil
  | cons ts tss =>
    rw [List.forall_mem_cons] at h
    exact isChain_append h.1 (hcommas tss h.2) (hhead tss)

/-- No two scalars meet in a value. -/
theorem isChain_tokens (j : Json) : j.tokens.IsChain Apart := by
  induction j using induction with
  | null | bool b | integer n | real s | string s => exact List.isChain_singleton _
  | array es ih =>
    have hparts := isChain_separated (List.forall_mem_map.2 ih)
    rw [tokens, elementTokens_eq]
    exact isChain_cons (by simp) (isChain_append hparts (List.isChain_singleton _) (by simp))
  | object ms ih =>
    have hmembers : ∀ ts ∈ ms.map fun m => Token.string m.1 :: .colon :: tokens m.2,
        ts.IsChain Apart := by
      rw [List.forall_mem_map]
      intro m hm
      exact isChain_cons (by simp) (isChain_cons (by simp) (ih m hm))
    rw [tokens, memberTokens_eq]
    exact isChain_cons (by simp)
      (isChain_append (isChain_separated hmembers) (List.isChain_singleton _) (by simp))

/-! ### Cutting texts into tokens -/

theorem endsNumber_append (hblanks : Blank blanks) (h : EndsNumber cs) :
    EndsNumber (blanks ++ cs) := by
  cases blanks with
  | nil => exact h
  | cons b blanks =>
    intro c hc
    obtain rfl : b = c := by simpa using hc
    have hblank := hblanks b List.mem_cons_self
    simp only [Token.isBlank, Bool.or_eq_true, decide_eq_true_eq] at hblank
    obtain ((rfl | rfl) | rfl) | rfl := hblank <;> decide

theorem endsNumber_nil : EndsNumber [] := by simp [EndsNumber]

/-- A number does not go on in a text that does not begin with a scalar. -/
theorem Text.endsNumber (h : Text ts cs) (hts : ∀ t ∈ ts.head?, ∀ j, t ≠ .scalar j) :
    EndsNumber cs := by
  cases h with
  | nil hblanks => simpa using endsNumber_append hblanks endsNumber_nil
  | cons hblanks ht _ =>
    obtain ⟨c, cs, rfl, -, hc⟩ := ht.head
    apply endsNumber_append hblanks
    intro d hd
    obtain rfl : c = d := by simpa using hd
    exact hc (hts _ rfl)

theorem go_append (hblanks : Blank blanks) (cs : List Char) (n : Nat) :
    Token.ofText?.go (blanks.length + n) (blanks ++ cs) = Token.ofText?.go n cs := by
  induction blanks with
  | nil => simp
  | cons b blanks ih =>
    obtain ⟨hb, hblanks⟩ := List.forall_mem_cons.1 hblanks
    rw [List.length_cons, Nat.add_right_comm, List.cons_append, Token.ofText?.go, if_pos hb,
      ih hblanks]

/-- A text is cut into its tokens while there are enough turns. -/
theorem Text.go (h : Text ts cs) (hts : ts.IsChain Apart) {n : Nat} (hn : cs.length ≤ n) :
    Token.ofText?.go n cs = some ts := by
  induction h generalizing n with
  | @nil blanks hblanks =>
    obtain ⟨m, rfl⟩ := Nat.exists_eq_add_of_le hn
    have hskip := go_append hblanks [] m
    rw [List.append_nil] at hskip
    rw [hskip, Token.ofText?.go]
  | @cons t ts blanks cs rest hblanks ht h ih =>
    obtain ⟨happart, hts⟩ := List.isChain_cons.1 hts
    have hends : ∀ j, t = .scalar j → EndsNumber rest := by
      rintro j rfl
      refine h.endsNumber fun u hu k => ?_
      exact (happart u hu).resolve_left (fun hne => hne j rfl) k
    have hnext := next?_of_spells ht hends
    obtain ⟨c, cs, rfl, hc, -⟩ := ht.head
    rw [List.length_append] at hn
    obtain ⟨m, rfl⟩ := Nat.exists_eq_add_of_le (Nat.le_trans (Nat.le_add_right ..) hn)
    have hm : (c :: cs ++ rest).length ≤ m := by omega
    cases m with
    | zero => cases hm
    | succ m =>
      rw [List.length_append, List.length_cons] at hm
      rw [go_append hblanks, List.cons_append, Token.ofText?.go, hc, ← List.cons_append, hnext]
      simp [ih hts (show rest.length ≤ m by omega)]

/-- **A text is cut into the tokens that it spells.** -/
theorem ofText?_of_text (h : Text ts cs) (hts : ts.IsChain Apart) :
    Token.ofText? cs = some ts :=
  h.go hts (Nat.le_refl _)

/-! ### Reading tokens -/

theorem foldlM_elements {es : List Json} (hes : ∀ j ∈ es, ∀ outer ts,
      (j.tokens ++ ts).foldlM Progress.step (.value outer) =
        ts.foldlM Progress.step (.complete j outer))
    (j : Json) (before : List Json) (outer : List Frame) (ts : List Token) :
    ((es.map tokens).flatMap (.comma :: ·) ++ .closeBracket :: ts).foldlM Progress.step
        (.complete j (.array before :: outer)) =
      ts.foldlM Progress.step (.complete (.array ((j :: before).reverse ++ es)) outer) := by
  induction es generalizing j before with
  | nil =>
    rw [List.append_nil]
    rfl
  | cons k es ih =>
    obtain ⟨hk, hes⟩ := List.forall_mem_cons.1 hes
    have hnext := ih hes k (j :: before)
    rw [List.map_cons, List.flatMap_cons, List.append_assoc, List.cons_append, List.foldlM_cons]
    change (k.tokens ++ _).foldlM Progress.step (.value (.array (j :: before) :: outer)) = _
    rw [hk, hnext]
    simp

theorem foldlM_members {ms : List (Option String × Json)} (hms : ∀ m ∈ ms, ∀ outer ts,
      (m.2.tokens ++ ts).foldlM Progress.step (.value outer) =
        ts.foldlM Progress.step (.complete m.2 outer))
    (k : Option String) (j : Json) (before : List (Option String × Json)) (outer : List Frame)
    (ts : List Token) :
    ((ms.map fun m => Token.string m.1 :: .colon :: tokens m.2).flatMap (.comma :: ·) ++
        .closeBrace :: ts).foldlM Progress.step (.complete j (.object before k :: outer)) =
      ts.foldlM Progress.step (.complete (.object (((k, j) :: before).reverse ++ ms)) outer) := by
  induction ms generalizing k j before with
  | nil =>
    rw [List.append_nil]
    rfl
  | cons m ms ih =>
    obtain ⟨hm, hms⟩ := List.forall_mem_cons.1 hms
    have hnext := ih hms m.1 m.2 ((k, j) :: before)
    rw [List.map_cons, List.flatMap_cons, List.append_assoc, List.cons_append, List.foldlM_cons]
    change (m.2.tokens ++ _).foldlM Progress.step
      (.value (.object ((k, j) :: before) m.1 :: outer)) = _
    rw [hm, hnext]
    simp

/-- The first element of an array is read as any value is. -/
theorem foldlM_arrayOpened (j : Json) (outer : List Frame) (ts : List Token) :
    (j.tokens ++ ts).foldlM Progress.step (.arrayOpened outer) =
      (j.tokens ++ ts).foldlM Progress.step (.value (.array [] :: outer)) := by
  cases j <;> rfl

/-- **The tokens of a value are read as that value**, whatever is open around it. -/
theorem foldlM_tokens (j : Json) : ∀ (outer : List Frame) (ts : List Token),
    (j.tokens ++ ts).foldlM Progress.step (.value outer) =
      ts.foldlM Progress.step (.complete j outer) := by
  induction j using induction with
  | null | bool b | integer n | real s | string s =>
    intro outer ts
    rfl
  | array es ih =>
    intro outer ts
    cases es with
    | nil => rfl
    | cons j es =>
      obtain ⟨hj, hes⟩ := List.forall_mem_cons.1 ih
      rw [tokens, elementTokens_eq, List.map_cons, separated, List.cons_append, List.foldlM_cons]
      change (_ : List Token).foldlM Progress.step (.arrayOpened outer) = _
      rw [List.append_assoc, List.append_assoc, foldlM_arrayOpened, hj, List.singleton_append,
        foldlM_elements hes]
      rfl
  | object ms ih =>
    intro outer ts
    cases ms with
    | nil => rfl
    | cons m ms =>
      obtain ⟨hm, hms⟩ := List.forall_mem_cons.1 ih
      rw [tokens, memberTokens_eq, List.map_cons, separated, List.cons_append, List.append_assoc,
        List.append_assoc, List.singleton_append]
      change (m.2.tokens ++ _).foldlM Progress.step (.value (.object [] m.1 :: outer)) = _
      rw [hm, foldlM_members hms]
      rfl

/-- **Every text of a value is read as that value.** -/
theorem parse?_of_text {j : Json} {s : String} (h : Text j.tokens s.toList) :
    parse? s = some j := by
  have hfold := foldlM_tokens j [] []
  rw [List.append_nil, List.foldlM_nil] at hfold
  unfold parse? ofTokens?
  rw [ofText?_of_text h (isChain_tokens j)]
  simp [hfold, Progress.result?]

/-! ### Putting texts together -/

theorem Text.blanks_append (hblanks : Blank blanks) (h : Text ts cs) : Text ts (blanks ++ cs) := by
  cases h with
  | nil hblanks' => exact .nil (List.forall_mem_append.2 ⟨hblanks, hblanks'⟩)
  | cons hblanks' ht h =>
    rw [← List.append_assoc]
    exact .cons (List.forall_mem_append.2 ⟨hblanks, hblanks'⟩) ht h

theorem Text.append (hts : Text ts cs) (hus : Text us rest) : Text (ts ++ us) (cs ++ rest) := by
  induction hts with
  | nil hblanks => exact hus.blanks_append hblanks
  | cons hblanks ht _ ih =>
    rw [List.append_assoc, List.append_assoc]
    exact .cons hblanks ht ih

theorem blank_nil : Blank [] := by simp [Blank]

theorem Spells.text (h : Spells t cs) : Text [t] cs := by
  simpa using Text.cons blank_nil h (.nil blank_nil)

/-- Texts with commas and blanks between them. -/
theorem text_intercalate {tss : List (List Token)} {parts : List (List Char)}
    (hblanks : Blank blanks) (h : List.Forall₂ Text tss parts) :
    Text (separated tss) ((',' :: blanks).intercalate parts) := by
  cases h with
  | nil => exact .nil blank_nil
  | @cons ts part tss parts hpart hparts =>
    induction hparts generalizing ts part with
    | nil => simpa [separated] using hpart
    | @cons us next tss parts hnext _ ih =>
      have hcomma : Text [.comma] (',' :: blanks) := by
        simpa using Spells.comma.text.append (.nil hblanks)
      have hrest := (hpart.append hcomma).append (ih hnext)
      rw [List.intercalate_cons_of_ne_nil (by simp)]
      simpa [separated] using hrest

/-! ### Writing -/

/-- A layout that puts nothing but blanks between tokens. -/
structure Layout.IsBlank (l : Layout) : Prop where
  lineBreak : ∀ depth, Blank (l.lineBreak depth).toList
  afterColon : Blank l.afterColon.toList

theorem Layout.isBlank_compact : Layout.compact.IsBlank :=
  ⟨fun _ => blank_nil, blank_nil⟩

theorem Layout.isBlank_pretty : Layout.pretty.IsBlank := by
  constructor
  · intro depth
    simp [Layout.pretty, Blank, Token.isBlank]
  · simp [Layout.pretty, Blank, Token.isBlank]

/-- A value that every layout writes as one of its texts. -/
def Writes (j : Json) : Prop :=
  ∀ l : Layout, l.IsBlank → ∀ depth, Text j.tokens (write l depth j).toList

/-- Every character of a string is written as one of its spellings. -/
theorem spellsUnit_escaped (c : Char) : SpellsUnit c.toNat (escaped c) := by
  unfold escaped
  split
  · exact .escape (by decide)
  · exact .escape (by decide)
  · exact .escape (by decide)
  · exact .escape (by decide)
  · exact .escape (by decide)
  · exact .escape (by decide)
  · exact .escape (by decide)
  · next hquote hbackslash _ _ _ _ _ =>
    split
    · next hlt =>
      have hhigh : IsHexDigit (c.toNat / 16) (c.toNat / 16).digitChar := ⟨by omega, .inl rfl⟩
      have hlow : IsHexDigit (c.toNat % 16) (c.toNat % 16).digitChar := ⟨by omega, .inl rfl⟩
      have hzero : IsHexDigit 0 '0' := ⟨by decide, .inl rfl⟩
      have hcode := SpellsUnit.code hzero hzero hhigh hlow
      rwa [show 16 * (16 * (16 * 0 + 0) + c.toNat / 16) + c.toNat % 16 = c.toNat by omega]
        at hcode
    · next hge => exact .plain (Nat.le_of_not_lt hge) hquote hbackslash

theorem spells_quoted (text : Option String) : Spells (.string text) (quoted text).toList := by
  cases text with
  | some s =>
    have hunits (cs : List Char) : SpellsUnits (cs.map Char.toNat) (cs.flatMap escaped) := by
      induction cs with
      | nil => exact .nil
      | cons c cs ih => exact .cons (spellsUnit_escaped c) ih
    have hencodes (cs : List Char) : Encodes cs (cs.map Char.toNat) := by
      induction cs with
      | nil => exact .nil
      | cons c cs ih => exact .whole ih
    have htext : IsTextOf (s.toList.map Char.toNat) (some s) := hencodes s.toList
    simpa [quoted] using Spells.string (hunits s.toList) htext
  | none =>
    have hcode : SpellsUnit 0xD800 ['\\', 'u', 'd', '8', '0', '0'] :=
      @SpellsUnit.code 13 8 0 0 _ _ _ _ ⟨by decide, .inl rfl⟩ ⟨by decide, .inl rfl⟩
        ⟨by decide, .inl rfl⟩ ⟨by decide, .inl rfl⟩
    have htext : IsTextOf [0xD800] none := by
      intro cs hcs
      have hread := hcs.chars?
      cases hread
    simpa [quoted] using Spells.string (.cons hcode .nil) htext

theorem writes_null : Writes .null := by
  intro l _ depth
  simpa [write, tokens] using Spells.nullName.text

theorem writes_integer (n : Int) : Writes (.integer n) := by
  intro l _ depth
  simpa [write, tokens] using (Spells.integer n).text

theorem writes_string (text : Option String) : Writes (.string text) := by
  intro l _ depth
  simpa [write, tokens] using (spells_quoted text).text

@[simp]
theorem writeElements_eq (l : Layout) (depth : Nat) (es : List Json) :
    writeElements l depth es = es.map (write l depth) := by
  induction es with
  | nil => rfl
  | cons j es ih => rw [writeElements, ih, List.map_cons]

@[simp]
theorem writeMembers_eq (l : Layout) (depth : Nat) (ms : List (Option String × Json)) :
    writeMembers l depth ms =
      ms.map fun m => quoted m.1 ++ ":" ++ l.afterColon ++ write l depth m.2 := by
  induction ms with
  | nil => rfl
  | cons m ms ih => rw [writeMembers, ih, List.map_cons]

/-- A container is written as its brackets around what it holds. -/
theorem text_enclosed {l : Layout} (hl : l.IsBlank) (depth : Nat) {u : Token}
    {opening closing : String} (hopening : Spells t opening.toList)
    (hclosing : Spells u closing.toList) {tss : List (List Token)} {parts : List String}
    (h : List.Forall₂ Text tss (parts.map String.toList)) :
    Text (t :: (separated tss ++ [u])) (enclosed l depth opening closing parts).toList := by
  cases parts with
  | nil =>
    cases h
    simpa [enclosed, separated] using hopening.text.append hclosing.text
  | cons part parts =>
    have hparts := text_intercalate (hl.lineBreak (depth + 1)) h
    have hinside := (hparts.blanks_append (hl.lineBreak (depth + 1))).append
      (hclosing.text.blanks_append (hl.lineBreak depth))
    simpa [enclosed, String.toList_intercalate] using hopening.text.append hinside

theorem writes_array {es : List Json} (h : ∀ j ∈ es, Writes j) : Writes (.array es) := by
  intro l hl depth
  rw [write, tokens, writeElements_eq, elementTokens_eq]
  apply text_enclosed hl depth .openBracket .closeBracket
  rw [List.map_map, List.forall₂_map_left_iff, List.forall₂_map_right_iff, List.forall₂_same]
  intro j hj
  exact h j hj l hl (depth + 1)

theorem writes_object {ms : List (Option String × Json)} (h : ∀ m ∈ ms, Writes m.2) :
    Writes (.object ms) := by
  intro l hl depth
  rw [write, tokens, writeMembers_eq, memberTokens_eq]
  apply text_enclosed hl depth .openBrace .closeBrace
  rw [List.map_map, List.forall₂_map_left_iff, List.forall₂_map_right_iff, List.forall₂_same]
  intro m hm
  have hvalue := (h m hm l hl (depth + 1)).blanks_append hl.afterColon
  simpa using (spells_quoted m.1).text.append (Spells.colon.text.append hvalue)

end

end Json

end TraceOpt
