import TraceOpt.Json.Basic
import TraceOpt.Numeral

/-!
# The tokens of a JSON text

Punctuation, strings, numbers and the three names, with blanks between them.  A string is read as
the code units that it spells; escapes for a surrogate pair make one character, and a surrogate
without its partner leaves the string without text.
-/

namespace TraceOpt

namespace Json

/-- A token of a JSON text. -/
inductive Token where
  | openBrace
  | closeBrace
  | openBracket
  | closeBracket
  | colon
  | comma
  /-- A number or one of the names `null`, `true` and `false`. -/
  | scalar (value : Json)
  | string (text : Option String)

namespace Token

/-- The characters that may stand between tokens. -/
def isBlank (c : Char) : Bool := c = ' ' || c = '\t' || c = '\n' || c = '\r'

/-! ### Strings -/

/-- The character that a one-letter escape stands for. -/
def escape? : Char → Option Char
  | '"' => some '"'
  | '\\' => some '\\'
  | '/' => some '/'
  | 'b' => some '\x08'
  | 'f' => some '\x0c'
  | 'n' => some '\n'
  | 'r' => some '\r'
  | 't' => some '\t'
  | _ => none

/-- The code units up to the closing quote, and the text after it.  Characters stand for
themselves, control characters must be escaped. -/
def units? : List Char → Option (List Nat × List Char)
  | [] => none
  | '"' :: rest => some ([], rest)
  | '\\' :: 'u' :: a :: b :: c :: d :: rest => do
    let u ← Numeral.hex? [a, b, c, d]
    let (us, rest) ← units? rest
    return (u :: us, rest)
  | '\\' :: c :: rest => do
    let e ← escape? c
    let (us, rest) ← units? rest
    return (e.toNat :: us, rest)
  | c :: rest => do
    if c.toNat < 0x20 then none
    let (us, rest) ← units? rest
    return (c.toNat :: us, rest)

/-- Whether a code unit is the first half of a surrogate pair. -/
def isHigh (u : Nat) : Bool := 0xD800 ≤ u && u < 0xDC00

/-- Whether a code unit is the second half of a surrogate pair. -/
def isLow (u : Nat) : Bool := 0xDC00 ≤ u && u < 0xE000

/-- The characters that code units spell, if surrogates come in pairs. -/
def chars? : List Nat → Option (List Char)
  | [] => some []
  | hi :: lo :: us =>
    if isHigh hi && isLow lo then
      (chars? us).map (Char.ofNat (0x10000 + (hi - 0xD800) * 0x400 + (lo - 0xDC00)) :: ·)
    else if isHigh hi || isLow hi then none
    else (chars? (lo :: us)).map (Char.ofNat hi :: ·)
  | [u] => if isHigh u || isLow u then none else some [Char.ofNat u]

/-! ### Numbers -/

/-- The whole part of a number: a zero alone, or digits that do not begin with one. -/
def whole? : List Char → Option (List Char × List Char)
  | '0' :: rest => some (['0'], rest)
  | cs => Numeral.digits? cs

/-- The fraction of a number, which may be missing. -/
def fraction? : List Char → Option (List Char × List Char)
  | '.' :: rest => (Numeral.digits? rest).map fun (ds, rest) => ('.' :: ds, rest)
  | cs => some ([], cs)

/-- The exponent of a number, which may be missing. -/
def exponent? : List Char → Option (List Char × List Char)
  | e :: rest =>
    if e = 'e' || e = 'E' then
      let (sign, rest) := rest.splitAt (if rest.head? = some '+' || rest.head? = some '-' then 1 else 0)
      (Numeral.digits? rest).map fun (ds, rest) => (e :: sign ++ ds, rest)
    else some ([], e :: rest)
  | [] => some ([], [])

/-- Takes a number off a text. -/
def number? (cs : List Char) : Option (Json × List Char) := do
  let (sign, rest) := cs.splitAt (if cs.head? = some '-' then 1 else 0)
  let (whole, rest) ← whole? rest
  let (fraction, rest) ← fraction? rest
  let (exponent, rest) ← exponent? rest
  let n := Numeral.decimal whole
  if !(fraction ++ exponent).isEmpty || (!sign.isEmpty && n = 0) then
    return (.real (.ofList (sign ++ whole ++ fraction ++ exponent)), rest)
  else return (.integer (if sign.isEmpty then n else -n), rest)

/-! ### Texts -/

/-- Takes a token off a text that does not begin with a blank. -/
def next? : List Char → Option (Token × List Char)
  | '\x7b' :: rest => some (openBrace, rest)
  | '\x7d' :: rest => some (closeBrace, rest)
  | '[' :: rest => some (openBracket, rest)
  | ']' :: rest => some (closeBracket, rest)
  | ':' :: rest => some (colon, rest)
  | ',' :: rest => some (comma, rest)
  | '"' :: rest => (units? rest).map fun (us, rest) => (string ((chars? us).map .ofList), rest)
  | 'n' :: 'u' :: 'l' :: 'l' :: rest => some (scalar .null, rest)
  | 't' :: 'r' :: 'u' :: 'e' :: rest => some (scalar (.bool true), rest)
  | 'f' :: 'a' :: 'l' :: 's' :: 'e' :: rest => some (scalar (.bool false), rest)
  | cs => (number? cs).map fun (n, rest) => (scalar n, rest)

/-- The tokens of a text. -/
def ofText? (cs : List Char) : Option (List Token) :=
  go cs.length cs
where
  /-- Takes tokens off while characters are left; every token takes at least one. -/
  go : Nat → List Char → Option (List Token)
    | _, [] => some []
    | 0, _ => none
    | n + 1, c :: cs =>
      if isBlank c then go n cs
      else do
        let (t, rest) ← next? (c :: cs)
        let ts ← go n rest
        return t :: ts

end Token

end Json

end TraceOpt
