import Mathlib.Tactic.Common
import Mathlib.Tactic.IntervalCases
import Mathlib.Data.List.TakeDrop
import Mathlib.Data.List.TakeWhile
import TraceOpt.Json.Token

/-!
# How JSON tokens are spelled

A token may be spelled in several ways: a character of a string stands for itself, or is escaped by
a letter, by its code, or by the codes of a surrogate pair; a number may have a fraction and an
exponent.  `Spells` says which spellings there are, by the rules of the format and apart from any
reader.  Every spelling is then read as the token that it spells, whatever comes after it.  A number
alone must not go on in the text that follows.

* `SpellsUnit`, `Encodes`: the code units of a string, and the characters that they make.
* `chars?_eq_some_iff`: characters are read off code units by these rules, and by no others.
* `number?_append`: the parts of a number are read to their ends.
* `next?_of_spells`: every spelling is read as its token.
-/

namespace TraceOpt

namespace Json

/-! ### Strings -/

/-- A hexadecimal digit of either case, and its value. -/
def IsHexDigit (n : Nat) (c : Char) : Prop := n < 16 ∧ (c = n.digitChar ∨ c = n.digitChar.toUpper)

/-- The letters that may follow a backslash, each with the character that it then stands for. -/
def escapes : List (Char × Char) :=
  [('"', '"'), ('\\', '\\'), ('/', '/'), ('b', '\x08'), ('f', '\x0c'), ('n', '\n'), ('r', '\r'),
    ('t', '\t')]

/-- The spellings of a code unit in a string. -/
inductive SpellsUnit : Nat → List Char → Prop
  /-- Characters stand for themselves, except quotes, backslashes and control characters. -/
  | plain {c : Char} (hc : 0x20 ≤ c.toNat) (hquote : c ≠ '"') (hbackslash : c ≠ '\\') :
      SpellsUnit c.toNat [c]
  | escape {c e : Char} (h : (c, e) ∈ escapes) : SpellsUnit e.toNat ['\\', c]
  | code {w x y z : Nat} {a b c d : Char} (ha : IsHexDigit w a) (hb : IsHexDigit x b)
      (hc : IsHexDigit y c) (hd : IsHexDigit z d) :
      SpellsUnit (16 * (16 * (16 * w + x) + y) + z) ['\\', 'u', a, b, c, d]

/-- The spellings of code units one after another. -/
inductive SpellsUnits : List Nat → List Char → Prop
  | nil : SpellsUnits [] []
  | cons {u : Nat} {us : List Nat} {cs rest : List Char} (hu : SpellsUnit u cs)
      (h : SpellsUnits us rest) : SpellsUnits (u :: us) (cs ++ rest)

/-- The code units of characters. -/
inductive Encodes : List Char → List Nat → Prop
  | nil : Encodes [] []
  | whole {c : Char} {cs : List Char} {us : List Nat} (h : Encodes cs us) :
      Encodes (c :: cs) (c.toNat :: us)
  /-- A character beyond the first 65536 may also be a surrogate pair. -/
  | pair {c : Char} {cs : List Char} {us : List Nat} {hi lo : Nat} (hhi : hi < 0x400)
      (hlo : lo < 0x400) (hc : c.toNat = 0x10000 + hi * 0x400 + lo) (h : Encodes cs us) :
      Encodes (c :: cs) ((0xD800 + hi) :: (0xDC00 + lo) :: us)

/-- The text of a string from its code units; there is none if a surrogate stands alone. -/
def IsTextOf (us : List Nat) : Option String → Prop
  | some s => Encodes s.toList us
  | none => ∀ cs, ¬ Encodes cs us

/-! ### Numbers -/

/-- A run of decimal digits. -/
def IsDigits (ds : List Char) : Prop := ds ≠ [] ∧ ∀ c ∈ ds, c.isDigit = true

/-- The whole part of a number, which has no leading zero. -/
def IsWhole (ds : List Char) : Prop := ds = ['0'] ∨ IsDigits ds ∧ ds.head? ≠ some '0'

/-- The fraction of a number, if there is one. -/
def IsFraction (cs : List Char) : Prop := cs = [] ∨ ∃ ds, IsDigits ds ∧ cs = '.' :: ds

/-- The exponent of a number, if there is one. -/
def IsExponent (cs : List Char) : Prop :=
  cs = [] ∨ ∃ e sign ds, (e = 'e' ∨ e = 'E') ∧ (sign = [] ∨ sign = ['+'] ∨ sign = ['-']) ∧
    IsDigits ds ∧ cs = e :: (sign ++ ds)

/-- A text in which a number that ends before it does not go on. -/
def EndsNumber (cs : List Char) : Prop :=
  ∀ c ∈ cs.head?, c.isDigit = false ∧ c ≠ '.' ∧ c ≠ 'e' ∧ c ≠ 'E'

/-! ### Tokens -/

/-- The spellings of a token. -/
inductive Spells : Token → List Char → Prop
  | openBrace : Spells .openBrace ['\x7b']
  | closeBrace : Spells .closeBrace ['\x7d']
  | openBracket : Spells .openBracket ['[']
  | closeBracket : Spells .closeBracket [']']
  | colon : Spells .colon [':']
  | comma : Spells .comma [',']
  | nullName : Spells (.scalar .null) ['n', 'u', 'l', 'l']
  | trueName : Spells (.scalar (.bool true)) ['t', 'r', 'u', 'e']
  | falseName : Spells (.scalar (.bool false)) ['f', 'a', 'l', 's', 'e']
  | integer (n : Int) : Spells (.scalar (.integer n)) n.repr.toList
  /-- A number with a fraction or an exponent, or a zero with a sign. -/
  | real {sign whole fraction exponent : List Char} (hsign : sign = [] ∨ sign = ['-'])
      (hwhole : IsWhole whole) (hfraction : IsFraction fraction) (hexponent : IsExponent exponent)
      (h : fraction ++ exponent ≠ [] ∨ sign = ['-'] ∧ whole = ['0']) :
      Spells (.scalar (.real (.ofList (sign ++ whole ++ fraction ++ exponent))))
        (sign ++ whole ++ fraction ++ exponent)
  | string {text : Option String} {us : List Nat} {cs : List Char} (hcs : SpellsUnits us cs)
      (htext : IsTextOf us text) : Spells (.string text) ('"' :: cs ++ ['"'])

section

variable {u : Nat} {us : List Nat} {cs ds rest : List Char} {c : Char}

/-! ### Reading strings -/

theorem IsHexDigit.hexDigit? {n : Nat} (h : IsHexDigit n c) : Numeral.hexDigit? c = some n := by
  obtain ⟨hn, rfl | rfl⟩ := h <;> interval_cases n <;> decide

theorem escape?_of_mem {e : Char} (h : (c, e) ∈ escapes) : Token.escape? c = some e := by
  revert h
  simp only [escapes, List.mem_cons, List.not_mem_nil, or_false, Prod.mk.injEq]
  rintro (⟨rfl, rfl⟩ | ⟨rfl, rfl⟩ | ⟨rfl, rfl⟩ | ⟨rfl, rfl⟩ | ⟨rfl, rfl⟩ | ⟨rfl, rfl⟩ | ⟨rfl, rfl⟩ |
    ⟨rfl, rfl⟩) <;> rfl

theorem hex?_eq {w x y z : Nat} {a b c d : Char} (ha : IsHexDigit w a) (hb : IsHexDigit x b)
    (hc : IsHexDigit y c) (hd : IsHexDigit z d) :
    Numeral.hex? [a, b, c, d] = some (16 * (16 * (16 * w + x) + y) + z) := by
  simp [Numeral.hex?, ha.hexDigit?, hb.hexDigit?, hc.hexDigit?, hd.hexDigit?]

/-- A code unit is read, and then the rest of the string. -/
theorem SpellsUnit.units? (h : SpellsUnit u cs) (rest : List Char) :
    Token.units? (cs ++ rest) = (Token.units? rest).map fun p => (u :: p.1, p.2) := by
  cases h with
  | @plain c hc hquote hbackslash =>
    have hnot : ¬ c.toNat < 0x20 := Nat.not_lt.2 hc
    rw [List.singleton_append, Token.units?.eq_def]
    split
    · next heq => cases heq
    · next heq => exact absurd (List.cons.inj heq).1 hquote
    · next heq => exact absurd (List.cons.inj heq).1 hbackslash
    · next heq => exact absurd (List.cons.inj heq).1 hbackslash
    · next heq =>
      obtain ⟨rfl, rfl⟩ := List.cons.inj heq
      rw [if_neg hnot]
      cases Token.units? rest <;> rfl
  | @escape c e h =>
    have he := escape?_of_mem h
    rw [List.cons_append, List.singleton_append, Token.units?.eq_def]
    split
    · next heq => cases heq
    · next heq => cases heq
    · next heq =>
      obtain ⟨rfl, -⟩ := List.cons.inj (List.cons.inj heq).2
      cases he
    · next heq =>
      obtain ⟨rfl, rfl⟩ := List.cons.inj (List.cons.inj heq).2
      rw [he]
      cases Token.units? rest <;> rfl
    · next hne heq =>
      obtain ⟨rfl, rfl⟩ := List.cons.inj heq
      exact absurd rfl (hne c rest rfl)
  | @code w x y z a b c d ha hb hc hd =>
    have hcode := hex?_eq ha hb hc hd
    change Token.units? ('\\' :: 'u' :: a :: b :: c :: d :: rest) = _
    rw [Token.units?, hcode]
    cases Token.units? rest <;> rfl

theorem SpellsUnits.units? (h : SpellsUnits us cs) (rest : List Char) :
    Token.units? (cs ++ '"' :: rest) = some (us, rest) := by
  induction h with
  | nil => rfl
  | cons hu _ ih =>
    rw [List.append_assoc, hu.units?, ih]
    rfl

theorem toNat_cases (c : Char) : c.toNat < 0xD800 ∨ 0xDFFF < c.toNat ∧ c.toNat < 0x110000 :=
  c.valid

/-- Code units are numbers of characters or halves of a surrogate pair. -/
theorem SpellsUnit.lt (h : SpellsUnit u cs) : u < 0x110000 := by
  cases h with
  | @plain c | @escape _ c =>
    have := toNat_cases c
    omega
  | code ha hb hc hd =>
    have := ha.1
    have := hb.1
    have := hc.1
    have := hd.1
    omega

theorem SpellsUnits.lt (h : SpellsUnits us cs) : ∀ u ∈ us, u < 0x110000 := by
  induction h with
  | nil => simp
  | cons hu _ ih => exact List.forall_mem_cons.2 ⟨hu.lt, ih⟩

theorem toNat_ofNat_of_isValidChar (h : u.isValidChar) : (Char.ofNat u).toNat = u := by
  unfold Char.ofNat
  rw [dif_pos h]
  rfl

/-- A code unit that is no half of a surrogate pair is the number of a character. -/
theorem toNat_ofNat (h : ¬ (Token.isHigh u || Token.isLow u) = true) (hu : u < 0x110000) :
    (Char.ofNat u).toNat = u := by
  apply toNat_ofNat_of_isValidChar
  simp only [Token.isHigh, Token.isLow, Bool.or_eq_true, Bool.and_eq_true,
    decide_eq_true_eq] at h
  unfold Nat.isValidChar
  omega

theorem chars?_cons (hhigh : Token.isHigh u = false) (hlow : Token.isLow u = false) :
    Token.chars? (u :: us) = (Token.chars? us).map (Char.ofNat u :: ·) := by
  cases us with
  | nil => simp [Token.chars?, hhigh, hlow]
  | cons lo us => simp [Token.chars?, hhigh, hlow]

theorem Encodes.chars? (h : Encodes cs us) : Token.chars? us = some cs := by
  induction h with
  | nil => rfl
  | @whole c cs us _ ih =>
    have := toNat_cases c
    have hhigh : Token.isHigh c.toNat = false := by
      simp only [Token.isHigh, Bool.and_eq_false_iff, decide_eq_false_iff_not]
      omega
    have hlow : Token.isLow c.toNat = false := by
      simp only [Token.isLow, Bool.and_eq_false_iff, decide_eq_false_iff_not]
      omega
    rw [chars?_cons hhigh hlow, ih, Char.ofNat_toNat]
    rfl
  | @pair c cs us hi lo hhi hlo hc _ ih =>
    have hhigh : Token.isHigh (0xD800 + hi) = true := by simp [Token.isHigh]; omega
    have hlow : Token.isLow (0xDC00 + lo) = true := by simp [Token.isLow]; omega
    rw [Token.chars?, hhigh, hlow, ih, Nat.add_sub_cancel_left, Nat.add_sub_cancel_left, ← hc,
      Char.ofNat_toNat]
    rfl

/-- **Which characters are read off code units.** -/
theorem chars?_eq_some_iff (hus : ∀ u ∈ us, u < 0x110000) :
    Token.chars? us = some cs ↔ Encodes cs us := by
  refine ⟨fun h => ?_, Encodes.chars?⟩
  fun_induction Token.chars? us generalizing cs with
  | case1 =>
    cases h
    exact .nil
  | case2 hi lo us hpair ih =>
    obtain ⟨cs, hcs, rfl⟩ := Option.map_eq_some_iff.1 h
    simp only [Token.isHigh, Token.isLow, Bool.and_eq_true, decide_eq_true_eq] at hpair
    obtain ⟨⟨hhi, hhi'⟩, hlo, hlo'⟩ := hpair
    have hrest := ih (fun u hu => hus u (by simp [hu])) hcs
    have hvalid : (0x10000 + (hi - 0xD800) * 0x400 + (lo - 0xDC00)).isValidChar := by
      right
      omega
    have hpair : Encodes (_ :: cs) ((0xD800 + (hi - 0xD800)) :: (0xDC00 + (lo - 0xDC00)) :: us) :=
      .pair (by omega) (by omega) (toNat_ofNat_of_isValidChar hvalid) hrest
    rwa [Nat.add_sub_cancel' hhi, Nat.add_sub_cancel' hlo] at hpair
  | case3 => cases h
  | case4 hi lo us hpair hsingle ih =>
    obtain ⟨cs, hcs, rfl⟩ := Option.map_eq_some_iff.1 h
    have hrest := ih (fun u hu => hus u (List.mem_cons_of_mem _ hu)) hcs
    have hwhole := Encodes.whole (c := Char.ofNat hi) hrest
    rwa [toNat_ofNat hsingle (hus hi List.mem_cons_self)] at hwhole
  | case5 => cases h
  | case6 u hsingle =>
    cases h
    have hwhole := Encodes.whole (c := Char.ofNat u) .nil
    rwa [toNat_ofNat hsingle (hus u List.mem_cons_self)] at hwhole

/-! ### Reading numbers -/

/-- A run of digits is read to its end. -/
theorem IsDigits.digits? (hds : IsDigits ds) (hrest : ∀ c ∈ rest.head?, c.isDigit = false) :
    Numeral.digits? (ds ++ rest) = some (ds, rest) := by
  have hspan : (ds ++ rest).span Char.isDigit = (ds, rest) := by
    rw [List.span_eq_takeWhile_dropWhile, List.takeWhile_append_of_pos hds.2,
      List.dropWhile_append_of_pos hds.2]
    cases rest with
    | nil => simp
    | cons c rest => simp [hrest c rfl]
  unfold Numeral.digits?
  rw [hspan]
  cases ds with
  | nil => exact absurd rfl hds.1
  | cons d ds => rfl

theorem IsWhole.whole? (h : IsWhole ds) (hrest : ∀ c ∈ rest.head?, c.isDigit = false) :
    Token.whole? (ds ++ rest) = some (ds, rest) := by
  obtain rfl | ⟨hds, hzero⟩ := h
  · rfl
  · have hread := hds.digits? hrest
    cases ds with
    | nil => exact absurd rfl hds.1
    | cons d ds =>
      rw [List.cons_append] at hread ⊢
      unfold Token.whole?
      split
      · next heq =>
        obtain ⟨rfl, -⟩ := List.cons.inj heq
        exact absurd rfl hzero
      · exact hread

theorem IsFraction.fraction? (h : IsFraction cs)
    (hrest : ∀ c ∈ rest.head?, c.isDigit = false ∧ c ≠ '.') :
    Token.fraction? (cs ++ rest) = some (cs, rest) := by
  obtain rfl | ⟨ds, hds, rfl⟩ := h
  · rw [List.nil_append]
    unfold Token.fraction?
    split
    · exact absurd rfl (hrest '.' rfl).2
    · rfl
  · rw [List.cons_append, Token.fraction?, hds.digits? fun c hc => (hrest c hc).1]
    rfl

theorem ne_of_isDigit {d : Char} (hd : d.isDigit = true) (hc : c.isDigit = false) : d ≠ c := by
  rintro rfl
  rw [hd] at hc
  cases hc

/-- The sign of an exponent is taken off, since digits come after it. -/
theorem splitAt_sign {sign : List Char} (hsign : sign = [] ∨ sign = ['+'] ∨ sign = ['-'])
    (hds : IsDigits ds) :
    (sign ++ ds ++ rest).splitAt (if (sign ++ ds ++ rest).head? = some '+' ||
      (sign ++ ds ++ rest).head? = some '-' then 1 else 0) = (sign, ds ++ rest) := by
  obtain ⟨hne, hdigit⟩ := hds
  cases ds with
  | nil => exact absurd rfl hne
  | cons d ds =>
    have hd : d.isDigit = true := hdigit d List.mem_cons_self
    have hplus : d ≠ '+' := ne_of_isDigit hd rfl
    have hminus : d ≠ '-' := ne_of_isDigit hd rfl
    obtain rfl | rfl | rfl := hsign <;> simp [List.splitAt_eq, hplus, hminus]

theorem IsExponent.exponent? (h : IsExponent cs) (hrest : EndsNumber rest) :
    Token.exponent? (cs ++ rest) = some (cs, rest) := by
  obtain rfl | ⟨e, sign, ds, he, hsign, hds, rfl⟩ := h
  · cases rest with
    | nil => rfl
    | cons c rest =>
      have hc := hrest c rfl
      simp [Token.exponent?, hc]
  · have hletter : (e = 'e' || e = 'E') = true := by simpa using he
    have hread := hds.digits? fun c hc => (hrest c hc).1
    rw [List.cons_append, Token.exponent?, if_pos hletter, splitAt_sign hsign hds]
    simp [hread]

/-- What follows the whole part of a number does not go on with it. -/
theorem head?_fraction_append {fraction exponent : List Char} (hfraction : IsFraction fraction)
    (hexponent : IsExponent exponent) (hrest : EndsNumber rest) :
    ∀ c ∈ (fraction ++ (exponent ++ rest)).head?, c.isDigit = false := by
  intro c hc
  obtain rfl | ⟨ds, -, rfl⟩ := hfraction
  · obtain rfl | ⟨e, sign, ds, he, -, -, rfl⟩ := hexponent
    · exact (hrest c hc).1
    · obtain rfl : e = c := by simpa using hc
      obtain rfl | rfl := he <;> rfl
  · obtain rfl : '.' = c := by simpa using hc
    rfl

/-- What follows the fraction of a number does not go on with it. -/
theorem head?_exponent_append {exponent : List Char} (hexponent : IsExponent exponent)
    (hrest : EndsNumber rest) :
    ∀ c ∈ (exponent ++ rest).head?, c.isDigit = false ∧ c ≠ '.' := by
  intro c hc
  obtain rfl | ⟨e, sign, ds, he, -, -, rfl⟩ := hexponent
  · exact ⟨(hrest c hc).1, (hrest c hc).2.1⟩
  · obtain rfl : e = c := by simpa using hc
    obtain rfl | rfl := he <;> decide

/-- The first character of a whole part is a digit. -/
theorem IsWhole.head (h : IsWhole ds) : ∃ d ds', ds = d :: ds' ∧ d.isDigit = true := by
  obtain rfl | ⟨⟨hne, hdigit⟩, -⟩ := h
  · exact ⟨'0', [], rfl, rfl⟩
  · cases ds with
    | nil => exact absurd rfl hne
    | cons d ds => exact ⟨d, ds, rfl, hdigit d List.mem_cons_self⟩

/-- **The parts of a number are read to their ends**, and make up its value. -/
theorem number?_append {sign whole fraction exponent : List Char}
    (hsign : sign = [] ∨ sign = ['-']) (hwhole : IsWhole whole) (hfraction : IsFraction fraction)
    (hexponent : IsExponent exponent) (hrest : EndsNumber rest) :
    Token.number? (sign ++ whole ++ fraction ++ exponent ++ rest) = some
      (if !(fraction ++ exponent).isEmpty || (!sign.isEmpty && Numeral.decimal whole = 0) then
        .real (.ofList (sign ++ whole ++ fraction ++ exponent))
      else .integer (if sign.isEmpty then Numeral.decimal whole else -Numeral.decimal whole),
        rest) := by
  have hsplit : (sign ++ (whole ++ (fraction ++ (exponent ++ rest)))).splitAt
      (if (sign ++ (whole ++ (fraction ++ (exponent ++ rest)))).head? = some '-' then 1 else 0) =
      (sign, whole ++ (fraction ++ (exponent ++ rest))) := by
    obtain ⟨d, ds, rfl, hd⟩ := hwhole.head
    have hminus : d ≠ '-' := ne_of_isDigit hd rfl
    obtain rfl | rfl := hsign <;> simp [List.splitAt_eq, hminus]
  have hread := hwhole.whole? (head?_fraction_append hfraction hexponent hrest)
  have hread' := hfraction.fraction? (head?_exponent_append hexponent hrest)
  have hread'' := hexponent.exponent? hrest
  rw [List.append_assoc, List.append_assoc, List.append_assoc]
  unfold Token.number?
  rw [hsplit]
  simp only [hread, hread', hread'', Option.bind_eq_bind, Option.bind_some]
  split <;> rfl

/-! ### Integers -/

/-- The digits of a number that is not 0 do not begin with 0. -/
theorem head?_toDigits {n : Nat} (hn : 0 < n) : (Nat.toDigits 10 n).head? ≠ some '0' := by
  -- the first digit is that of the number less its last digit, until one digit is left
  induction n using Nat.strongRecOn with
  | ind n ih =>
    rw [Nat.toDigits_eq_if (by decide)]
    split
    · have hne : n.digitChar ≠ '0' := by
        rw [Ne, Nat.digitChar_eq_zero]
        exact Nat.ne_of_gt hn
      simpa using hne
    · rw [List.head?_append, List.head?_eq_some_head Nat.toDigits_ne_nil, Option.some_or,
        ← List.head?_eq_some_head]
      exact ih (n / 10) (by omega) (by omega)

/-- The digits of a number make a whole part. -/
theorem isWhole_toDigits (n : Nat) : IsWhole (Nat.toDigits 10 n) := by
  cases n with
  | zero => exact .inl (Nat.toDigits_zero 10)
  | succ n =>
    have hdigits : ∀ c ∈ Nat.toDigits 10 (n + 1), c.isDigit = true := fun c hc =>
      Nat.isDigit_of_mem_toDigits (by decide) (by decide) hc
    exact .inr ⟨⟨Nat.toDigits_ne_nil, hdigits⟩, head?_toDigits n.succ_pos⟩

/-- An integer is spelled by its sign and its digits. -/
theorem toList_repr (n : Int) :
    n.repr.toList = (if 0 ≤ n then [] else ['-']) ++ Nat.toDigits 10 n.natAbs := by
  rw [Int.repr_eq_if]
  split
  · next h =>
    have habs : n.toNat = n.natAbs := by omega
    simp [Nat.repr_eq_ofList_toDigits, habs]
  · next h =>
    have habs : (-n).toNat = n.natAbs := by omega
    simp [Nat.repr_eq_ofList_toDigits, habs]

theorem number?_repr (n : Int) (hrest : EndsNumber rest) :
    Token.number? (n.repr.toList ++ rest) = some (.integer n, rest) := by
  have hsign : (if 0 ≤ n then [] else ['-']) = [] ∨ (if 0 ≤ n then [] else ['-']) = ['-'] := by
    split <;> simp
  have hread := number?_append hsign (isWhole_toDigits n.natAbs) (.inl rfl) (.inl rfl) hrest
  rw [List.append_nil, List.append_nil, ← toList_repr] at hread
  rw [hread, Numeral.decimal, Nat.ofDigitChars_ten_toDigits]
  by_cases h : 0 ≤ n
  · simp [h]
  · have hzero : n.natAbs ≠ 0 := by omega
    have hneg : -(n.natAbs : Int) = n := by omega
    simp only [h, if_false, List.isEmpty_cons, List.append_nil, List.isEmpty_nil, hzero,
      decide_false, Bool.not_true, Bool.not_false, Bool.and_false, Bool.or_false,
      Bool.false_eq_true, hneg]

/-! ### Reading tokens -/

/-- A text that begins as a number does is read as a number. -/
theorem next?_eq_number? (hc : c = '-' ∨ c.isDigit = true) :
    Token.next? (c :: cs) = (Token.number? (c :: cs)).map fun p => (.scalar p.1, p.2) := by
  rw [Token.next?.eq_def]
  split <;> first
    | rfl
    | next heq =>
      obtain ⟨rfl, -⟩ := List.cons.inj heq
      exact absurd hc (by decide)

theorem isBlank_eq_false (hc : c = '-' ∨ c.isDigit = true) : Token.isBlank c = false := by
  by_contra hblank
  simp only [Token.isBlank, Bool.not_eq_false, Bool.or_eq_true, decide_eq_true_eq] at hblank
  obtain ((rfl | rfl) | rfl) | rfl := hblank <;> revert hc <;> decide

/-- Numbers begin with a sign or a digit. -/
theorem head_number {sign whole : List Char} (hsign : sign = [] ∨ sign = ['-'])
    (hwhole : IsWhole whole) :
    ∃ c cs, sign ++ whole = c :: cs ∧ (c = '-' ∨ c.isDigit = true) := by
  obtain ⟨d, ds, rfl, hd⟩ := hwhole.head
  obtain rfl | rfl := hsign
  · exact ⟨d, ds, rfl, .inr hd⟩
  · exact ⟨'-', d :: ds, rfl, .inl rfl⟩

theorem IsTextOf.map_chars? {text : Option String} (hus : ∀ u ∈ us, u < 0x110000)
    (h : IsTextOf us text) : (Token.chars? us).map String.ofList = text := by
  cases text with
  | some s =>
    rw [(chars?_eq_some_iff hus).2 h, Option.map_some, String.ofList_toList]
  | none =>
    rw [Option.map_eq_none_iff, Option.eq_none_iff_forall_ne_some]
    intro cs hcs
    exact h cs ((chars?_eq_some_iff hus).1 hcs)

/-- **Every spelling is read as its token.**  A scalar must not go on in the text after it. -/
theorem next?_of_spells {t : Token} (h : Spells t cs)
    (hrest : ∀ j, t = .scalar j → EndsNumber rest) : Token.next? (cs ++ rest) = some (t, rest) := by
  cases h with
  | openBrace | closeBrace | openBracket | closeBracket | colon | comma | nullName | trueName
  | falseName => rfl
  | integer n =>
    obtain ⟨c, ds, hcons, hc⟩ := head_number (ite_eq_or_eq (0 ≤ n) [] ['-'])
      (isWhole_toDigits n.natAbs)
    have hread := number?_repr n (hrest _ rfl)
    rw [toList_repr, hcons, List.cons_append] at hread ⊢
    rw [next?_eq_number? hc, hread]
    rfl
  | @real sign whole fraction exponent hsign hwhole hfraction hexponent h =>
    obtain ⟨c, ds, hcons, hc⟩ := head_number hsign hwhole
    have hread := number?_append hsign hwhole hfraction hexponent (hrest _ rfl)
    have hreal : (!(fraction ++ exponent).isEmpty ||
        (!sign.isEmpty && Numeral.decimal whole = 0)) = true := by
      obtain h | ⟨rfl, rfl⟩ := h
      · simp [h]
      · rw [show Numeral.decimal ['0'] = 0 from rfl]
        simp
    rw [if_pos hreal, hcons, List.cons_append, List.cons_append, List.cons_append] at hread
    rw [hcons, List.cons_append, List.cons_append, List.cons_append, next?_eq_number? hc, hread]
    rfl
  | @string text us cs hcs htext =>
    have hread := hcs.units? rest
    simp only [List.cons_append, List.append_assoc, List.nil_append]
    simp only [Token.next?, hread, Option.map_some, htext.map_chars? hcs.lt]

/-- Spellings begin with a character that is no blank, and only those of scalars with one that a
number can go on with. -/
theorem Spells.head {t : Token} (h : Spells t cs) :
    ∃ c cs', cs = c :: cs' ∧ Token.isBlank c = false ∧
      ((∀ j, t ≠ .scalar j) → c.isDigit = false ∧ c ≠ '.' ∧ c ≠ 'e' ∧ c ≠ 'E') := by
  cases h with
  | openBrace | closeBrace | openBracket | closeBracket | colon | comma | nullName | trueName
  | falseName | string => exact ⟨_, _, rfl, by decide, fun _ => by decide⟩
  | integer n =>
    obtain ⟨c, ds, hcons, hc⟩ := head_number (ite_eq_or_eq (0 ≤ n) [] ['-'])
      (isWhole_toDigits n.natAbs)
    rw [toList_repr, hcons]
    exact ⟨c, ds, rfl, isBlank_eq_false hc, fun hscalar => absurd rfl (hscalar _)⟩
  | @real sign whole fraction exponent hsign hwhole =>
    obtain ⟨c, ds, hcons, hc⟩ := head_number hsign hwhole
    rw [hcons]
    exact ⟨c, _, rfl, isBlank_eq_false hc, fun hscalar => absurd rfl (hscalar _)⟩

end

end Json

end TraceOpt
