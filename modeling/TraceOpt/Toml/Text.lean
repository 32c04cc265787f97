import TraceOpt.Numeral

/-!
# TOML strings

Basic strings have escapes, literal strings have none, and either may span lines between triple
quotes.  The functions here read from after the opening quotes to the closing ones.
-/

namespace TraceOpt

namespace Toml.Text

/-- The characters that may stand in comments and strings: all but control characters, of which
the tab is allowed. -/
def isPrintable (c : Char) : Bool := c = '\t' || (0x20 ≤ c.toNat && c.toNat ≠ 0x7f)

/-- Blanks within a line. -/
def isBlank (c : Char) : Bool := c = ' ' || c = '\t'

/-- The text after a line break, if there is one here.  A carriage return alone is none. -/
def newline? : List Char → Option (List Char)
  | '\n' :: rest => some rest
  | '\r' :: '\n' :: rest => some rest
  | _ => none

/-- The text after blanks, line breaks and comments. -/
def skipGap : (inComment : Bool) → List Char → List Char
  | _, [] => []
  | _, '\n' :: rest => skipGap false rest
  | _, '\r' :: '\n' :: rest => skipGap false rest
  | false, '#' :: rest => skipGap true rest
  | inComment, c :: rest =>
    if (if inComment then isPrintable c else isBlank c) then skipGap inComment rest else c :: rest

/-- The character that a one-letter escape stands for. -/
def escape? : Char → Option Char
  | '"' => some '"'
  | '\\' => some '\\'
  | 'b' => some '\x08'
  | 'f' => some '\x0c'
  | 'n' => some '\n'
  | 'r' => some '\r'
  | 't' => some '\t'
  | _ => none

/-- The character with a hexadecimal number. -/
def scalar? (cs : List Char) : Option Char := do
  let n ← Numeral.hex? cs
  if n.isValidChar then some (.ofNat n) else none

/-- What a string is spelled with: one quote, or three of them around lines. -/
inductive Span where
  | line
  | lines
  deriving DecidableEq

/-- The result with a character put in front of the string. -/
def withChar (c : Char) (r : Option (List Char × List Char)) : Option (List Char × List Char) :=
  r.map fun (s, rest) => (c :: s, rest)

/-- What follows a quote in a string over lines: up to two more quotes may stand before the
closing ones.  `none` if the quote does not belong to the end of the string. -/
def closing? (quote : Char) : List Char → Option (List Char × List Char)
  | a :: b :: c :: d :: rest =>
    if a ≠ quote ∨ b ≠ quote then none
    else if c ≠ quote then some ([], c :: d :: rest)
    else if d ≠ quote then some ([quote], d :: rest)
    else some ([quote, quote], rest)
  | [a, b, c] =>
    if a ≠ quote ∨ b ≠ quote then none
    else if c ≠ quote then some ([], [c])
    else some ([quote], [])
  | [a, b] => if a ≠ quote ∨ b ≠ quote then none else some ([], [])
  | _ => none

/-- Reads a basic string.  A backslash at the end of a line skips all blanks and line breaks up to
the next other character. -/
def basic? (span : Span) : (skipping : Bool) → List Char → Option (List Char × List Char)
  | _, [] => none
  | _, '"' :: rest =>
    if span = .line then some ([], rest)
    else
      match closing? '"' rest with
      | some end_ => some end_
      | none => withChar '"' (basic? span false rest)
  | _, '\\' :: 'u' :: a :: b :: c :: d :: rest => do
    withChar (← scalar? [a, b, c, d]) (basic? span false rest)
  | _, '\\' :: 'U' :: a :: b :: c :: d :: e :: f :: g :: h :: rest => do
    withChar (← scalar? [a, b, c, d, e, f, g, h]) (basic? span false rest)
  | _, '\\' :: c :: rest =>
    match escape? c with
    | some e => withChar e (basic? span false rest)
    | none =>
      if span = .lines && (newline? ((c :: rest).dropWhile isBlank)).isSome then
        basic? span true (c :: rest)
      else none
  | skipping, '\r' :: '\n' :: rest =>
    if span = .line then none
    else if skipping then basic? span true rest
    else withChar '\n' (basic? span false rest)
  | skipping, c :: rest =>
    if c = '\n' then
      if span = .line then none
      else if skipping then basic? span true rest
      else withChar '\n' (basic? span false rest)
    else if skipping && isBlank c then basic? span true rest
    else if isPrintable c then withChar c (basic? span false rest)
    else none

/-- Reads a literal string. -/
def literal? (span : Span) : List Char → Option (List Char × List Char)
  | [] => none
  | '\'' :: rest =>
    if span = .line then some ([], rest)
    else
      match closing? '\'' rest with
      | some end_ => some end_
      | none => withChar '\'' (literal? span rest)
  | '\r' :: '\n' :: rest => if span = .line then none else withChar '\n' (literal? span rest)
  | c :: rest =>
    if isPrintable c || (c = '\n' && span = .lines) then withChar c (literal? span rest) else none

/-- Reads a string of any spelling, from its opening quote; a line break right after three quotes
does not count. -/
def string? : List Char → Option (String × List Char)
  | '"' :: '"' :: '"' :: rest => named (basic? .lines false ((newline? rest).getD rest))
  | '\'' :: '\'' :: '\'' :: rest => named (literal? .lines ((newline? rest).getD rest))
  | '"' :: rest => named (basic? .line false rest)
  | '\'' :: rest => named (literal? .line rest)
  | _ => none
where
  /-- Packs the characters of a string. -/
  named (r : Option (List Char × List Char)) : Option (String × List Char) :=
    r.map fun (s, rest) => (.ofList s, rest)

end Toml.Text

end TraceOpt
