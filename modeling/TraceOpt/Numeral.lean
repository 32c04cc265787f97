/-!
# Digits and numerals

The parts of numerals that text formats share: runs of decimal digits, and hexadecimal digits.
-/

namespace TraceOpt

namespace Numeral

/-- The value of a hexadecimal digit, of either case. -/
def hexDigit? (c : Char) : Option Nat :=
  if '0' ≤ c ∧ c ≤ '9' then some (c.toNat - '0'.toNat)
  else if 'a' ≤ c ∧ c ≤ 'f' then some (c.toNat - 'a'.toNat + 10)
  else if 'A' ≤ c ∧ c ≤ 'F' then some (c.toNat - 'A'.toNat + 10)
  else none

/-- The value of a hexadecimal numeral; `none` if a character is no such digit. -/
def hex? (cs : List Char) : Option Nat :=
  cs.foldlM (fun n c => (hexDigit? c).map (16 * n + ·)) 0

/-- The value of a run of decimal digits. -/
def decimal (cs : List Char) : Nat := Nat.ofDigitChars 10 cs 0

/-- Takes a run of decimal digits off a text; `none` if there is none. -/
def digits? (cs : List Char) : Option (List Char × List Char) :=
  match cs.span Char.isDigit with
  | ([], _) => none
  | (run, rest) => some (run, rest)

end Numeral

end TraceOpt
