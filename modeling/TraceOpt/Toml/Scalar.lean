import TraceOpt.Numeral

/-!
# TOML numbers, dates and times

`Scalar.isNumber` and `Scalar.isMoment` say which spellings are numbers and which are dates or
times.  Digits of a number may be divided by single underscores, and integers lie in the range of
64-bit words; a date must be in the calendar.
-/

namespace TraceOpt

namespace Toml.Scalar

/-! ### Numbers -/

/-- Digits, with single underscores between them. -/
def isDigits (isDigit : Char → Bool) : List Char → Bool
  | [] => false
  | [c] => isDigit c
  | c :: '_' :: rest => isDigit c && isDigits isDigit rest
  | c :: rest => isDigit c && isDigits isDigit rest

/-- Decimal digits that do not begin with a zero, unless it is alone. -/
def isWhole : List Char → Bool
  | ['0'] => true
  | '0' :: _ => false
  | cs => isDigits Char.isDigit cs

/-- The value of digits in a base, underscores skipped. -/
def valueOf (base : Nat) (cs : List Char) : Nat :=
  (cs.filterMap Numeral.hexDigit?).foldl (fun n d => base * n + d) 0

/-- Splits a sign off a numeral. -/
def unsigned : List Char → Bool × List Char
  | '-' :: rest => (true, rest)
  | '+' :: rest => (false, rest)
  | cs => (false, cs)

/-- The number of integers that are not negative: half of the 64-bit words. -/
def integerBound : Nat := 0x8000000000000000

/-- An integer in decimal, hexadecimal, octal or binary. -/
def isInteger : List Char → Bool
  | '0' :: 'x' :: ds =>
    isDigits (fun c => (Numeral.hexDigit? c).isSome) ds && valueOf 16 ds < integerBound
  | '0' :: 'o' :: ds => isDigits (fun c => '0' ≤ c && c ≤ '7') ds && valueOf 8 ds < integerBound
  | '0' :: 'b' :: ds => isDigits (fun c => c = '0' || c = '1') ds && valueOf 2 ds < integerBound
  | cs =>
    let (negative, ds) := unsigned cs
    isWhole ds && valueOf 10 ds < (if negative then integerBound + 1 else integerBound)

/-- The exponent of a number after its mark. -/
def isExponent (cs : List Char) : Bool := isDigits Char.isDigit (unsigned cs).2

/-- Splits a text at the first character that a test picks, which is left out. -/
def splitAt? (p : Char → Bool) (cs : List Char) : Option (List Char × List Char) :=
  match cs.span (!p ·) with
  | (_, []) => none
  | (before, _ :: after) => some (before, after)

/-- A number with a fraction, an exponent or both, or one of the names of infinity and not a
number. -/
def isReal (cs : List Char) : Bool :=
  let body := (unsigned cs).2
  let isMark (c : Char) : Bool := c = 'e' || c = 'E'
  let (mantissa, exponent) := match splitAt? isMark body with
    | none => (body, none)
    | some (m, e) => (m, some e)
  body = ['i', 'n', 'f'] || body = ['n', 'a', 'n'] ||
    (match splitAt? (· = '.') mantissa, exponent with
      | none, none => false
      | none, some e => isWhole mantissa && isExponent e
      | some (w, f), none => isWhole w && isDigits Char.isDigit f
      | some (w, f), some e => isWhole w && isDigits Char.isDigit f && isExponent e)

/-- A number. -/
def isNumber (cs : List Char) : Bool := isInteger cs || isReal cs

/-! ### Dates and times -/

/-- The number of days in a month. -/
def daysIn (year month : Nat) : Nat :=
  if month = 2 then
    if year % 4 = 0 ∧ (year % 100 ≠ 0 ∨ year % 400 = 0) then 29 else 28
  else if month = 4 ∨ month = 6 ∨ month = 9 ∨ month = 11 then 30 else 31

/-- Takes a number of so many digits off a text. -/
def fixed? (n : Nat) (cs : List Char) : Option (Nat × List Char) :=
  let (ds, rest) := cs.splitAt n
  if ds.length = n ∧ ds.all Char.isDigit then some (Numeral.decimal ds, rest) else none

/-- Takes a given character off a text. -/
def mark? (c : Char) : List Char → Option (List Char)
  | [] => none
  | d :: rest => if c = d then some rest else none

/-- Takes a date off a text. -/
def date? (cs : List Char) : Option (List Char) := do
  let (year, cs) ← fixed? 4 cs
  let (month, cs) ← fixed? 2 (← mark? '-' cs)
  let (day, cs) ← fixed? 2 (← mark? '-' cs)
  if 1 ≤ month ∧ month ≤ 12 ∧ 1 ≤ day ∧ day ≤ daysIn year month then some cs else none

/-- Takes a time of day off a text. -/
def time? (cs : List Char) : Option (List Char) := do
  let (hour, cs) ← fixed? 2 cs
  let (minute, cs) ← fixed? 2 (← mark? ':' cs)
  let (second, cs) ← fixed? 2 (← mark? ':' cs)
  if hour ≤ 23 ∧ minute ≤ 59 ∧ second ≤ 60 then
    match cs with
    | '.' :: rest => (Numeral.digits? rest).map (·.2)
    | _ => some cs
  else none

/-- The rest of a moment after its time: nothing, or a distance from universal time. -/
def isOffset : List Char → Bool
  | [] => true
  | [c] => c = 'Z' || c = 'z'
  | c :: cs =>
    (c = '+' || c = '-') &&
      (do
        let (hour, cs) ← fixed? 2 cs
        let (minute, cs) ← fixed? 2 (← mark? ':' cs)
        return hour ≤ 23 && minute ≤ 59 && cs.isEmpty) == some true

/-- A date, a time, or both with a mark between them. -/
def isMoment (cs : List Char) : Bool :=
  match date? cs with
  | none => time? cs == some []
  | some [] => true
  | some (c :: rest) =>
    (c = 'T' || c = 't' || c = ' ') &&
      (match time? rest with
        | none => false
        | some rest => isOffset rest)

/-- The characters of numbers, dates and times; a blank between date and time comes extra. -/
def isPart (c : Char) : Bool :=
  c.isAlphanum || c = '+' || c = '-' || c = '_' || c = '.' || c = ':'

/-- Takes a number, date or time off a text. -/
def take? (cs : List Char) : Option (List Char × List Char) :=
  let (run, rest) := cs.span isPart
  let (run, rest) := match date? run, rest with
    | some [], ' ' :: c :: after =>
      if c.isDigit then
        let (time, rest) := (c :: after).span isPart
        (run ++ ' ' :: time, rest)
      else (run, rest)
    | _, _ => (run, rest)
  if isNumber run || isMoment run then some (run, rest) else none

end Toml.Scalar

end TraceOpt
